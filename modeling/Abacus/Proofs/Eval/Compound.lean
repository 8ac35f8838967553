import Abacus.Grammar.Standard
import Abacus.Proofs.Eval.Folding
import Abacus.Proofs.Eval.Overlooked
import Abacus.Proofs.Grammar.Index

/-!
# Compound assignment

An assignment evaluates its right operand before its target is looked at.  So a compound assignment
reads its variable after the operand has been evaluated, while an assignment of the combination
reads it before.  Where the variable stands for a literal and the operand does not change that, the
read gives the same at both times and leaves nothing behind.
-/

namespace Abacus

open Eval

namespace Expr

/-! ## Equations -/

theorem evaluate_changing {o : Operator} (changes : o.action.strictness = .target) (l e : Expr) :
    (Expr.binary o l e).evaluate = (do
      let w ← e.evaluate
      o.applyWith evaluate (.expr l) (.value w) (pure (.literal w)) >>= evaluate) := by
  have valued : o.binds = false := by
    obtain ⟨symbol, action⟩ := o
    cases action <;> first | rfl | cases changes
  rw [evaluate_binary valued, changes]
  simp only [Operand.obtain, Operand.stepWith, Strictness.evaluatesLeft,
    Strictness.evaluatesRight, if_true, Bool.false_eq_true, if_false, bind_assoc, pure_bind]

def stored (x : Cell) (v : Value) : Eval Value := do
  modify fun s => s.define x (.literal v)
  return v

section

variable {o : Operator} {x : Cell} (assignable : x.kind = .variable)

include assignable

theorem target_cell : (Operand.expr (.cell x)).target = .ok (.cell x) :=
  if_pos (decide_eq_true assignable)

theorem assign_evaluate (v : Value) :
    (do (Expr.cell x).assign (.literal v); evaluate (.literal v)) = stored x v := by
  rw [assign, if_pos assignable, evaluate_literal]
  rfl

theorem evaluate_assign (assigns : o.action = .assign) (e : Expr) :
    (Expr.binary o (.cell x) e).evaluate = (do stored x (← e.evaluate)) := by
  rw [evaluate_changing (by rw [assigns]; rfl)]
  simp only [Operator.applyWith, assigns, target_cell assignable, Eval.ofExcept, Operand.evaluate,
    bind_assoc, pure_bind, assign_evaluate assignable]

theorem evaluate_update {rule : ValueRule} (updates : o.action = .update rule) (e : Expr) :
    (Expr.binary o (.cell x) e).evaluate = (do
      let w ← e.evaluate
      let v ← (Expr.cell x).evaluate
      stored x (← Eval.ofExcept (rule.apply v w))) := by
  rw [evaluate_changing (by rw [updates]; rfl)]
  simp only [Operator.applyWith, updates, target_cell assignable, Operand.evaluate, bind_assoc]
  simp only [Eval.ofExcept, pure_bind, assign_evaluate assignable]

end

/-! ## Reading a literal -/

theorem runOn_cell_of_literal {x : Cell} {v : Value} {s : Store}
    (literal : (s.definition x).literal? = some v) (room : s.readDepth x < readLimit) :
    (Expr.cell x).evaluate.runOn s = some (.ok v, (s.enterRead x).leaveRead x) := by
  have inside : (s.enterRead x).definition x = s.definition x := rfl
  rw [evaluate_eq_resolve]
  show (reading x _).runOn s = _
  rw [runOn_reading, if_neg (Nat.not_le_of_lt room), runOn_bind_ok (runOn_definition x _), inside,
    evaluate_of_literal? literal]
  rfl

theorem sameCounts_of_evaluate {e : Expr} {s t : Store} {r : Except EvalError Value}
    (ends : e.evaluate.runOn s = some (r, t)) : s.SameCounts t := by
  obtain ⟨budget, ends⟩ := evaluate_eq_some_iff.1 ends
  exact sameCounts_of_asking (.ask e.uses_anything True.intro) ends

/-- A literal may be read before or after an expression that does not change it. -/
theorem readAfter_sameOutcome_readBefore {x : Cell} {e : Expr} {s : Store} {v : Value}
    (literal : (s.definition x).literal? = some v) (room : s.readDepth x < readLimit)
    (unchanged : ∀ r t, e.evaluate.runOn s = some (r, t) → t.definition x = s.definition x)
    {α : Type} {f : Value → Value → Eval α}
    (respects : ∀ v w t t', t.SameContents t' →
      SameOutcome Store.SameContents ((f v w).runOn t) ((f v w).runOn t')) :
    SameOutcome Store.SameContents
      (Eval.runOn (do let w ← e.evaluate; let v ← (Expr.cell x).evaluate; f v w) s)
      (Eval.runOn (do let v ← (Expr.cell x).evaluate; let w ← e.evaluate; f v w) s) := by
  rw [runOn_bind_ok (runOn_cell_of_literal literal room)]
  refine (e.evaluate_sameContents (.afterRead s x)).bind fun w t t' ends same => ?_
  have literal : (t.definition x).literal? = some v := by rwa [unchanged _ _ ends]
  have room : t.readDepth x < readLimit := by rwa [(sameCounts_of_evaluate ends).1]
  rw [runOn_bind_ok (runOn_cell_of_literal literal room)]
  exact respects v w _ _ ((Store.SameContents.afterRead t x).symm.trans same)

/-! ## Main result -/

theorem stored_sameOutcome (x : Cell) (r : Except EvalError Value) {s s' : Store}
    (same : s.SameContents s') :
    SameOutcome Store.SameContents (Eval.runOn (do stored x (← Eval.ofExcept r)) s)
      (Eval.runOn (do stored x (← Eval.ofExcept r)) s') := by
  cases r with
  | error cause => exact .ended same _
  | ok v => exact .ended (same.define x (.literal v)) _

theorem update_sameOutcome_assign {update assignment combination : Operator} {rule : ValueRule}
    (updates : update.action = .update rule) (assigns : assignment.action = .assign)
    (combines : combination.action = .combine rule) {x : Cell} (assignable : x.kind = .variable)
    {e : Expr} {s : Store} {v : Value} (literal : (s.definition x).literal? = some v)
    (room : s.readDepth x < readLimit)
    (unchanged : ∀ r t, e.evaluate.runOn s = some (r, t) → t.definition x = s.definition x) :
    SameOutcome Store.SameContents ((Expr.binary update (.cell x) e).evaluate.runOn s)
      ((Expr.binary assignment (.cell x) (.binary combination (.cell x) e)).evaluate.runOn s) := by
  rw [evaluate_update assignable updates, evaluate_assign assignable assigns,
    evaluate_combine combines]
  simp only [bind_assoc]
  exact readAfter_sameOutcome_readBefore literal room unchanged fun v w _ _ =>
    stored_sameOutcome x (rule.apply v w)

/-- Compound assignment is assignment of the combination, as long as the variable stands for a
    literal that the right operand does not change. -/
theorem compound_assignment_combines {symbol : String}
    (base : symbol ∈ ["+", "-", "*", "/", "%", "^"]) :
    ∃ compound assignment combination : Operator,
      Grammar.standard.operator? (symbol ++ "=") = some compound ∧
      Grammar.standard.operator? "=" = some assignment ∧
      Grammar.standard.operator? symbol = some combination ∧
      ∀ (x : Cell) (e : Expr) (s : Store) (v : Value), x.kind = .variable →
        (s.definition x).literal? = some v → s.readDepth x < readLimit →
        (∀ r t, e.evaluate.runOn s = some (r, t) → t.definition x = s.definition x) →
        SameOutcome Store.SameContents
          ((Expr.binary compound (.cell x) e).evaluate.runOn s)
          ((Expr.binary assignment (.cell x)
            (.binary combination (.cell x) e)).evaluate.runOn s) := by
  obtain ⟨rule, compound, combination⟩ : ∃ rule,
      Grammar.standard.operator? (symbol ++ "=") = some ⟨symbol ++ "=", .update rule⟩ ∧
      Grammar.standard.operator? symbol = some ⟨symbol, .combine rule⟩ := by
    simp only [List.mem_cons, List.not_mem_nil, or_false] at base
    rcases base with rfl | rfl | rfl | rfl | rfl | rfl <;> exact ⟨_, rfl, rfl⟩
  exact ⟨_, _, _, compound, rfl, combination, fun x e s v assignable literal room unchanged =>
    update_sameOutcome_assign rfl rfl rfl assignable literal room unchanged⟩

/-- With 7 for `x` and 2 for `y`, both `x += y++` and `x = x + y++` give 9 and leave 3 for `y`. -/
theorem compound_assignment_with_increase :
    let x : Cell := ⟨0, "x", .variable⟩
    let y : Cell := ⟨1, "y", .variable⟩
    let number (n : Int) : Expr := .literal (some (.integer n))
    let increase : Expr := .unary ⟨"++", .after, .increase 1⟩ (.cell y)
    let s : Store := (Store.define {} x (number 7)).define y (number 2)
    ∃ t t',
      (Expr.binary ⟨"+=", .update .add⟩ (.cell x) increase).evaluate.runOn s =
        some (.ok (some (.integer 9)), t) ∧
      (Expr.binary ⟨"=", .assign⟩ (.cell x) (.binary ⟨"+", .combine .add⟩ (.cell x)
        increase)).evaluate.runOn s = some (.ok (some (.integer 9)), t') ∧
      t.SameContents t' ∧ t'.definition x = number 9 ∧ t'.definition y = number 3 := by
  intro x y number increase s
  have increases : increase.evaluate.runOn s =
      some (.ok (some (.integer 2)), ((s.enterRead y).leaveRead y).define y (number 3)) :=
    evaluate_eq_some_iff.2 ⟨4, rfl⟩
  have unchanged (r : Except EvalError Value) (t : Store)
      (ends : increase.evaluate.runOn s = some (r, t)) : t.definition x = s.definition x := by
    cases increases.symm.trans ends
    rfl
  obtain ⟨_, _, _, compound, assignment, combination, same⟩ :=
    @compound_assignment_combines "+" (by decide)
  cases compound
  cases assignment
  cases combination
  have combined := same x increase s (some (.integer 7)) rfl rfl (by decide) unchanged
  have ends : (Expr.binary ⟨"+=", .update .add⟩ (.cell x) increase).evaluate.runOn s = some
      (.ok (some (.integer 9)), _) := evaluate_eq_some_iff.2 ⟨8, rfl⟩
  obtain ⟨t', ends', contents⟩ := (ends ▸ combined).exists_eq_some
  exact ⟨_, t', ends, ends', contents, contents.definition x, contents.definition y⟩

end Expr

end Abacus
