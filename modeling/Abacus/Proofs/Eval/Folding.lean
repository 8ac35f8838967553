import Abacus.Proofs.Eval.Condition
import Abacus.Proofs.Eval.Outcome

/-!
# Actions on literals

An action on literals does the same when it is carried out as a step and when it is contracted: the
way in which it is handed its operands makes no difference, and no cell and no evaluator has a part
in it.  So an expression that combines literals can be folded from the inside, one contraction after
the other, and gives the value or the first error that evaluating it gives.
-/

namespace Abacus

open Eval

namespace Eval

variable {α β : Type}

theorem ofExcept_map (r : Except EvalError α) (f : α → β) :
    (do return f (← ofExcept r)) = ofExcept (r.map f) := by
  cases r <;> rfl

end Eval

/-! ## What actions make of literals -/

def connected (absorbing : Bool) (v w : Value) : Value :=
  match v.bind Number.truth? with
  | none => none
  | some t => if t = absorbing then some (.ofBool t) else (w.bind Number.truth?).map .ofBool

/-- What an operator makes of operands `l` and `r` that are the literals `v` and `w`.  No literal
    can be assigned to, and a literal is a single branch of a condition. -/
def Operator.onLiterals (o : Operator) (l r : Expr) (v w : Value) : Except EvalError Expr :=
  match o.action with
  | .combine rule => (rule.apply v w).map .literal
  | .assign | .bind | .update _ => .error (.notAssignable l.text)
  | .conjunction => .ok (.literal (connected false v w))
  | .disjunction => .ok (.literal (connected true v w))
  | .condition => .ok (if v.bind Number.truth? = some true then .literal w else .void)
  | .alternatives => .ok (.branches l r)

def UnaryRule.applyPresent (rule : UnaryRule) : Value → Except EvalError Value
  | none => .ok none
  | some a => rule a

def Modifier.onLiteral (m : Modifier) (e : Expr) (v : Value) : Except EvalError Expr :=
  match m.action with
  | .transform rule => (rule.applyPresent v).map .literal
  | .increase _ => .error (.notAssignable e.text)
  | .definition => .ok (.literal v)

theorem Builtin.exists_result (b : Builtin) (arguments : List Value) :
    ∃ r, ∀ eval, (Function.builtin b).call eval arguments = ofExcept r := by
  by_cases count : arguments.length = (Function.builtin b).arity
  · exact ⟨_, fun eval => Function.call_builtin count⟩
  · exact ⟨.error _, fun eval => Function.call_of_ne count⟩

namespace Expr

/-! ## Literals in parentheses -/

section

variable {e : Expr} {v : Value} (literal : e.literal? = some v)

include literal

theorem unwrapped_of_literal? : e.unwrapped = .literal v := by
  induction e using Expr.unwrapped.induct with
  | case1 inner inductionHypothesis => exact inductionHypothesis literal
  | case2 e other =>
    cases e with
    | literal w =>
      cases literal
      rfl
    | parens inner => exact absurd rfl (other inner)
    | cell _ | binary _ _ _ | unary _ _ | call _ _ | branches _ _ => cases literal

theorem evaluate_of_literal? : e.evaluate = pure v := by
  rw [evaluate_unwrapped, unwrapped_of_literal? literal, evaluate_literal]

theorem step_of_literal? (eval : Evaluator) : e.step eval = pure (.literal v) := by
  rw [step_unwrapped, unwrapped_of_literal? literal]
  rfl

theorem isInert_of_literal? : e.isInert := by
  rw [isInert_unwrapped, unwrapped_of_literal? literal]
  rfl

theorem frozenValue_of_literal? : e.frozenValue = v := by
  rw [frozenValue, literal, Option.getD_some]

theorem target_of_literal? :
    (Operand.expr e).target = .error (.notAssignable e.text) ∧
      (Operand.frozen e).target = .error (.notAssignable e.text) := by
  have constant : e.isVariable = false := by
    induction e using Expr.unwrapped.induct with
    | case1 inner inductionHypothesis => exact inductionHypothesis literal
    | case2 e other =>
      cases e with
      | cell _ => cases literal
      | parens inner => exact absurd rfl (other inner)
      | literal _ | binary _ _ _ | unary _ _ | call _ _ | branches _ _ => rfl
  simp [Operand.target, constant]

end

/-! ## Operators -/

section

variable {eval : Evaluator} {left right : Operand} {v w : Value}

theorem connective_eq (absorbing : Bool) (first : left.evaluate eval = pure v)
    (second : right.evaluate eval = pure w) :
    connective eval absorbing left right = pure (.literal (connected absorbing v w)) := by
  simp only [connective, first, second, pure_bind, connected]
  cases v.bind Number.truth? with
  | none => rfl
  | some t =>
    dsimp only
    split <;> rfl

theorem selectBranch_eq (first : left.evaluate eval = pure v) (inert : right.isInert) :
    selectBranch eval left right (pure (.literal w)) =
      pure (if v.bind Number.truth? = some true then .literal w else .void) := by
  simp only [selectBranch, first, pure_bind, branchesOf, inert, if_true]
  cases v.bind Number.truth? with
  | none => rfl
  | some choice => cases choice <;> rfl

variable {l r : Expr} (ofLeft : l.literal? = some v) (ofRight : r.literal? = some w)

include ofLeft ofRight

theorem step_binary_of_literal? (o : Operator) :
    (Expr.binary o l r).step evaluate = ofExcept (o.onLiterals l r v w) := by
  have first := evaluate_of_literal? ofLeft
  have second := evaluate_of_literal? ofRight
  have stepped := step_of_literal? ofRight evaluate
  have target := (target_of_literal? ofLeft).1
  -- How strict an action is decides which operands it is handed as values.
  simp only [step, Operator.applyWith, Operator.onLiterals]
  cases o.action with
  | combine rule =>
    simp only [Operator.Action.strictness, Strictness.evaluatesLeft, Strictness.evaluatesRight,
      Operand.obtain, if_true, first, second, pure_bind, Operand.evaluate]
    exact ofExcept_map _ _
  | assign | update _ =>
    simp only [Operator.Action.strictness, Strictness.evaluatesLeft, Strictness.evaluatesRight,
      Operand.obtain, if_true, Bool.false_eq_true, if_false, second, pure_bind, target]
    rfl
  | bind =>
    simp only [Operator.Action.strictness, Strictness.evaluatesLeft, Strictness.evaluatesRight,
      Operand.obtain, Bool.false_eq_true, if_false, pure_bind, target]
    rfl
  | conjunction | disjunction =>
    simp only [Operator.Action.strictness, Strictness.evaluatesLeft, Strictness.evaluatesRight,
      Operand.obtain, if_true, Bool.false_eq_true, if_false, first, pure_bind]
    exact connective_eq _ rfl second
  | condition =>
    simp only [Operator.Action.strictness, Strictness.evaluatesLeft, Strictness.evaluatesRight,
      Operand.obtain, if_true, Bool.false_eq_true, if_false, first, pure_bind, Operand.stepWith,
      stepped]
    exact selectBranch_eq rfl (isInert_of_literal? ofRight)
  | alternatives => rfl

theorem contract_binary_of_literal? (o : Operator) (eval : Evaluator) :
    (Expr.binary o l r).contract eval = ofExcept (o.onLiterals l r v w) := by
  have first : (Operand.frozen l).evaluate eval = pure v :=
    congrArg pure (frozenValue_of_literal? ofLeft)
  have second : (Operand.frozen r).evaluate eval = pure w :=
    congrArg pure (frozenValue_of_literal? ofRight)
  have inert := isInert_of_literal? ofRight
  have stepped : (Operand.frozen r).step eval = pure (.literal w) := by
    simp only [Operand.step, Operand.stepWith, inert, if_true]
    exact step_of_literal? ofRight eval
  simp only [contract, Operator.apply, Operator.applyWith, Operator.onLiterals]
  cases o.action with
  | combine rule =>
    simp only [first, second, pure_bind]
    exact ofExcept_map _ _
  | assign | update _ | bind =>
    simp only [(target_of_literal? ofLeft).2]
    rfl
  | conjunction | disjunction => exact connective_eq _ first second
  | condition =>
    rw [stepped]
    exact selectBranch_eq first inert
  | alternatives => rfl

end

/-! ## Modifiers -/

section

variable {e : Expr} {v : Value} (literal : e.literal? = some v)

include literal

theorem step_unary_of_literal? (m : Modifier) :
    (Expr.unary m e).step evaluate = ofExcept (m.onLiteral e v) := by
  simp only [step, Modifier.applyWith, Modifier.onLiteral]
  cases m.action with
  | transform rule =>
    simp only [Modifier.Action.strictness, Strictness.evaluatesLeft, Operand.obtain, if_true,
      evaluate_of_literal? literal, pure_bind, Operand.evaluate]
    cases v with
    | none => rfl
    | some a => exact ofExcept_map _ _
  | increase amount =>
    simp only [Modifier.Action.strictness, Strictness.evaluatesLeft, Operand.obtain,
      Bool.false_eq_true, if_false, pure_bind, (target_of_literal? literal).1]
    rfl
  | definition =>
    simp only [Modifier.Action.strictness, Strictness.evaluatesLeft, Operand.obtain,
      Bool.false_eq_true, if_false, pure_bind, Operand.stepWith, step_of_literal? literal]
    rfl

theorem contract_unary_of_literal? (m : Modifier) (eval : Evaluator) :
    (Expr.unary m e).contract eval = ofExcept (m.onLiteral e v) := by
  simp only [contract, Modifier.apply, Modifier.applyWith, Modifier.onLiteral]
  cases m.action with
  | transform rule =>
    simp only [Operand.evaluate, frozenValue_of_literal? literal, pure_bind]
    cases v with
    | none => rfl
    | some a => exact ofExcept_map _ _
  | increase amount =>
    simp only [(target_of_literal? literal).2]
    rfl
  | definition =>
    simp only [Operand.step, Operand.stepWith, isInert_of_literal? literal, if_true]
    exact step_of_literal? literal eval

end

/-! ## One action -/

theorem mapM_evaluate_of_literals {es : List Expr} (literals : ∀ e ∈ es, e.literal?.isSome) :
    es.mapM evaluate = pure (es.map frozenValue) := by
  induction es with
  | nil => rfl
  | cons e es inductionHypothesis =>
    rw [List.forall_mem_cons] at literals
    obtain ⟨v, literal⟩ := Option.isSome_iff_exists.1 literals.1
    rw [List.mapM_cons, evaluate_of_literal? literal, inductionHypothesis literals.2, pure_bind,
      pure_bind, List.map_cons, frozenValue_of_literal? literal]

/-- Whether all operands of the outermost action are literals, in parentheses or not. -/
def ActsOnLiterals : Expr → Prop
  | .binary _ l r => l.literal?.isSome ∧ r.literal?.isSome
  | .unary _ e => e.literal?.isSome
  | .call _ es => ∀ e ∈ es, e.literal?.isSome
  | .parens inner => inner.ActsOnLiterals
  | .literal _ | .cell _ | .branches _ _ => False

def CallsUser : Expr → Prop
  | .call f _ => f.isBuiltin = false
  | .parens inner => inner.CallsUser
  | .literal _ | .cell _ | .binary _ _ _ | .unary _ _ | .branches _ _ => False

theorem step_call_of_literals {f : Function} {es : List Expr}
    (literals : ∀ e ∈ es, e.literal?.isSome) :
    (Expr.call f es).step evaluate = (Expr.call f es).contract evaluate := by
  rw [step, mapM_evaluate_of_literals literals, pure_bind, contract]

/-- The result of an action on literals, which only a function of the user can make depend on more
    than the literals. -/
theorem exists_result_on_literals : ∀ e : Expr, e.ActsOnLiterals → ¬ e.CallsUser →
    ∃ r, e.step evaluate = Eval.ofExcept r ∧ ∀ eval, e.contract eval = Eval.ofExcept r
  | .parens inner, acts, builtin => exists_result_on_literals inner acts builtin
  | .binary o l r, ⟨left, right⟩, _ => by
    obtain ⟨v, left⟩ := Option.isSome_iff_exists.1 left
    obtain ⟨w, right⟩ := Option.isSome_iff_exists.1 right
    exact ⟨_, step_binary_of_literal? left right o, contract_binary_of_literal? left right o⟩
  | .unary m e, acts, _ => by
    obtain ⟨v, operand⟩ := Option.isSome_iff_exists.1 acts
    exact ⟨_, step_unary_of_literal? operand m, contract_unary_of_literal? operand m⟩
  | .call (.builtin b) es, literals, _ => by
    obtain ⟨r, calls⟩ := b.exists_result (es.map frozenValue)
    have contracts (eval : Evaluator) :
        (Expr.call (.builtin b) es).contract eval = Eval.ofExcept (r.map Expr.literal) := by
      rw [contract, calls, ofExcept_map]
    exact ⟨_, (step_call_of_literals literals).trans (contracts evaluate), contracts⟩
  | .call (.user _) _, _, builtin => absurd rfl builtin

theorem step_eq_contract_on_literals : ∀ e : Expr, e.ActsOnLiterals →
    e.step evaluate = e.contract evaluate
  | .parens inner, acts => step_eq_contract_on_literals inner acts
  | .call _ _, literals => step_call_of_literals literals
  | .binary o l r, acts => by
    obtain ⟨_, steps, contracts⟩ := exists_result_on_literals (.binary o l r) acts not_false
    rw [steps, contracts]
  | .unary m e, acts => by
    obtain ⟨_, steps, contracts⟩ := exists_result_on_literals (.unary m e) acts not_false
    rw [steps, contracts]

/-! ## Folding -/

mutual

/-- Contracts all actions of an expression, the inner ones first and operands from the left. -/
def folded (eval : Evaluator) : Expr → Eval Expr
  | .binary o l r => do
    let l ← l.folded eval
    let r ← r.folded eval
    (Expr.binary o l r).contract eval
  | .unary m e => do (Expr.unary m (← e.folded eval)).contract eval
  | .call f es => do (Expr.call f (← foldedAll eval es)).contract eval
  | .parens inner => do (Expr.parens (← inner.folded eval)).contract eval
  | .literal v => (Expr.literal v).contract eval
  | .cell c => (Expr.cell c).contract eval
  | .branches a b => (Expr.branches a b).contract eval

def foldedAll (eval : Evaluator) : List Expr → Eval (List Expr)
  | [] => return []
  | e :: rest => do
    let e ← e.folded eval
    return e :: (← foldedAll eval rest)

end

/-- Expressions that compute with literals: their operators combine values, their modifiers
    transform them, and their functions are builtin. -/
inductive Computes : Expr → Prop where
  | literal (v : Value) : Computes (.literal v)
  | binary {o : Operator} {rule : ValueRule} {l r : Expr} : o.action = .combine rule →
      Computes l → Computes r → Computes (.binary o l r)
  | unary {m : Modifier} {rule : UnaryRule} {e : Expr} : m.action = .transform rule →
      Computes e → Computes (.unary m e)
  | call (b : Builtin) {es : List Expr} : (∀ e ∈ es, Computes e) → Computes (.call (.builtin b) es)
  | parens {e : Expr} : Computes e → Computes (.parens e)

/-- What an expression evaluates to, whatever the store, is also what it is folded to. -/
def FoldsTo (e : Expr) (r : Except EvalError Value) : Prop :=
  e.evaluate = Eval.ofExcept r ∧ ∀ eval, e.folded eval = Eval.ofExcept (r.map Expr.literal)

theorem exists_foldsTo_all {es : List Expr} (each : ∀ e ∈ es, ∃ r, e.FoldsTo r) :
    ∃ r, es.mapM evaluate = Eval.ofExcept r ∧
      ∀ eval, foldedAll eval es = Eval.ofExcept (r.map (List.map Expr.literal)) := by
  induction es with
  | nil => exact ⟨.ok [], rfl, fun _ => rfl⟩
  | cons e es inductionHypothesis =>
    rw [List.forall_mem_cons] at each
    obtain ⟨r, evaluates, folds⟩ := each.1
    obtain ⟨rest, evaluatesAll, foldsAll⟩ := inductionHypothesis each.2
    refine ⟨do return (← r) :: (← rest), ?_, fun eval => ?_⟩
    · rw [List.mapM_cons, evaluates, evaluatesAll]
      cases r <;> cases rest <;> rfl
    · rw [foldedAll, folds, foldsAll]
      cases r <;> cases rest <;> rfl

theorem evaluate_combine {o : Operator} {rule : ValueRule} (combines : o.action = .combine rule)
    (l r : Expr) :
    (Expr.binary o l r).evaluate = (do
      let v ← l.evaluate
      let w ← r.evaluate
      Eval.ofExcept (rule.apply v w)) := by
  obtain ⟨symbol, action⟩ := o
  cases combines
  rw [evaluate_binary rfl]
  simp only [Operator.applyWith, Operand.obtain, Operand.evaluate, Operator.Action.strictness,
    Strictness.evaluatesLeft, Strictness.evaluatesRight, if_true, bind_assoc, pure_bind,
    evaluate_literal, bind_pure]

theorem evaluate_transform {m : Modifier} {rule : UnaryRule}
    (transforms : m.action = .transform rule) (e : Expr) :
    (Expr.unary m e).evaluate = (do Eval.ofExcept (rule.applyPresent (← e.evaluate))) := by
  obtain ⟨symbol, side, action⟩ := m
  cases transforms
  rw [evaluate_eq_resolve]
  simp only [resolve, step, Modifier.applyWith, Operand.obtain, Operand.evaluate,
    Modifier.Action.strictness, Strictness.evaluatesLeft, if_true, bind_assoc, pure_bind]
  congr 1
  funext v
  cases v with
  | none => exact (pure_bind _ _).trans (evaluate_literal none)
  | some a => simp only [bind_assoc, pure_bind, evaluate_literal, bind_pure]; rfl

theorem evaluate_call_builtin (b : Builtin) (es : List Expr) :
    (Expr.call (.builtin b) es).evaluate = (do
      (Function.builtin b).call evaluate (← es.mapM evaluate)) := by
  rw [evaluate_eq_resolve]
  simp only [resolve, step, bind_assoc, pure_bind, evaluate_literal, bind_pure]

theorem Computes.exists_foldsTo {e : Expr} (computes : e.Computes) : ∃ r, e.FoldsTo r := by
  induction computes with
  | literal v => exact ⟨.ok v, evaluate_literal v, fun _ => rfl⟩
  | @binary o rule l r combines _ _ leftHypothesis rightHypothesis =>
    obtain ⟨first, evaluatesLeft, foldsLeft⟩ := leftHypothesis
    obtain ⟨second, evaluatesRight, foldsRight⟩ := rightHypothesis
    refine ⟨do rule.apply (← first) (← second), ?_, fun eval => ?_⟩
    · rw [evaluate_combine combines, evaluatesLeft, evaluatesRight]
      cases first <;> cases second <;> rfl
    · rw [folded, foldsLeft, foldsRight]
      cases first with
      | error _ => rfl
      | ok v =>
        cases second with
        | error _ => rfl
        | ok w =>
          refine (contract_binary_of_literal? rfl rfl o eval).trans ?_
          rw [Operator.onLiterals, combines]
          rfl
  | @unary m rule e transforms _ inductionHypothesis =>
    obtain ⟨r, evaluates, folds⟩ := inductionHypothesis
    refine ⟨do rule.applyPresent (← r), ?_, fun eval => ?_⟩
    · rw [evaluate_transform transforms, evaluates]
      cases r <;> rfl
    · rw [folded, folds]
      cases r with
      | error _ => rfl
      | ok v =>
        refine (contract_unary_of_literal? rfl m eval).trans ?_
        rw [Modifier.onLiteral, transforms]
        rfl
  | @call b es _ inductionHypothesis =>
    obtain ⟨values, evaluates, folds⟩ := exists_foldsTo_all inductionHypothesis
    cases values with
    | error cause =>
      refine ⟨.error cause, ?_, fun eval => ?_⟩
      · rw [evaluate_call_builtin, evaluates]
        rfl
      · rw [folded, folds]
        rfl
    | ok vs =>
      obtain ⟨r, calls⟩ := b.exists_result vs
      refine ⟨r, ?_, fun eval => ?_⟩
      · rw [evaluate_call_builtin, evaluates]
        exact (pure_bind _ _).trans (calls evaluate)
      · rw [folded, folds]
        refine (pure_bind _ _).trans ?_
        have same : (vs.map Expr.literal).map frozenValue = vs := by
          rw [List.map_map]
          exact List.map_id'' (fun _ => rfl) vs
        rw [contract, same, calls, ← ofExcept_map]
  | @parens e _ inductionHypothesis =>
    obtain ⟨r, evaluates, folds⟩ := inductionHypothesis
    refine ⟨r, (evaluate_parens e).trans evaluates, fun eval => ?_⟩
    rw [folded, folds]
    cases r <;> rfl

/-! ## Main result -/

/-- Carried out as a step or contracted, an action on literals gives the same result or the same
    error, and apart from calls of a user's functions it changes no store.  An expression that
    computes with literals is folded, from the inside, to the value or the first error that
    evaluating it gives. -/
theorem contracting_literals_evaluates (e : Expr) :
    (e.ActsOnLiterals →
      e.step evaluate = e.contract evaluate ∧
      (¬ e.CallsUser → ∃ r, ∀ s, (e.step evaluate).runOn s = some (r, s) ∧
        ∀ eval, (e.contract eval).runOn s = some (r, s))) ∧
    (e.Computes → ∃ r, ∀ s, e.evaluate.runOn s = some (r, s) ∧
      ∀ eval, (e.folded eval).runOn s = some (r.map Expr.literal, s)) := by
  refine ⟨fun acts => ⟨step_eq_contract_on_literals e acts, fun builtin => ?_⟩, fun computes => ?_⟩
  · obtain ⟨r, steps, contracts⟩ := exists_result_on_literals e acts builtin
    refine ⟨r, fun s => ⟨?_, fun eval => ?_⟩⟩
    · rw [steps, runOn_ofExcept]
    · rw [contracts, runOn_ofExcept]
  · obtain ⟨r, evaluates, folds⟩ := computes.exists_foldsTo
    refine ⟨r, fun s => ⟨?_, fun eval => ?_⟩⟩
    · rw [evaluates, runOn_ofExcept]
    · rw [folds, runOn_ofExcept]

/-- Folding `(1) // 0` gives what evaluating it gives, and contracting `(1) = 0` what a step
    gives. -/
theorem floor_division_by_zero_folds :
    (∃ r, ∀ s, (Expr.binary ⟨"//", .combine .floorDiv⟩ (.parens (.literal (some (.integer 1))))
        (.literal (some (.integer 0)))).evaluate.runOn s = some (r, s) ∧
      ∀ eval, ((Expr.binary ⟨"//", .combine .floorDiv⟩ (.parens (.literal (some (.integer 1))))
        (.literal (some (.integer 0)))).folded eval).runOn s = some (r.map Expr.literal, s)) ∧
    (Expr.binary ⟨"=", .assign⟩ (.parens (.literal (some (.integer 1))))
        (.literal (some (.integer 0)))).step evaluate =
      (Expr.binary ⟨"=", .assign⟩ (.parens (.literal (some (.integer 1))))
        (.literal (some (.integer 0)))).contract evaluate :=
  ⟨(contracting_literals_evaluates _).2 (.binary rfl (.parens (.literal _)) (.literal _)),
    ((contracting_literals_evaluates (.binary _ (.parens (.literal _)) (.literal _))).1
      ⟨rfl, rfl⟩).1⟩

end Expr

end Abacus
