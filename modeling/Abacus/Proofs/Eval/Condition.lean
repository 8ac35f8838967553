import Abacus.Grammar.Standard
import Abacus.Proofs.Eval.Budget
import Abacus.Proofs.Expr.Parts
import Abacus.Session.Run
import Mathlib.Logic.Function.Iterate

/-!
# Conditions

A condition with a pair of branches evaluates the branch that it selects and
nothing else.  With a single branch it first takes a step of an inert one, before
it looks at the truth value.  This cannot be noticed exactly if the branch binds
no name and its step is `Harmless`.
-/

namespace Abacus

open Eval

namespace Expr

theorem evaluate_parens (e : Expr) : (Expr.parens e).evaluate = e.evaluate := by
  rw [evaluate_eq_resolve, resolve_parens, ← evaluate_eq_resolve]

theorem evaluate_unwrapped : ∀ e : Expr, e.evaluate = e.unwrapped.evaluate
  | .parens inner => by
    rw [evaluate_parens, evaluate_unwrapped inner]
    rfl
  | .literal _ | .cell _ | .binary _ _ _ | .unary _ _ | .call _ _ | .branches _ _ => rfl

theorem unwrapped_parens (depth : Nat) (e : Expr) : (parens^[depth] e).unwrapped = e.unwrapped := by
  induction depth with
  | zero => rfl
  | succ depth inductionHypothesis =>
    rw [Function.iterate_succ_apply']
    exact inductionHypothesis

theorem evaluate_literal (v : Value) : (Expr.literal v).evaluate = pure v := by
  rw [evaluate_eq_resolve]
  rfl

theorem evaluate_branches (a b : Expr) : (Expr.branches a b).evaluate = throw .strayBranches := by
  rw [evaluate_eq_resolve]
  rfl

theorem evaluate_binary {o : Operator} (valued : o.binds = false) (l r : Expr) :
    (Expr.binary o l r).evaluate = (do
      let a ← Operand.obtain evaluate o.action.strictness.evaluatesLeft l
      let b ← Operand.obtain evaluate o.action.strictness.evaluatesRight r
      o.applyWith evaluate a b (b.stepWith (r.step evaluate)) >>= evaluate) := by
  rw [evaluate_eq_resolve]
  simp only [resolve, step_binary, valued, Bool.false_eq_true, if_false, bind_assoc]

/-! ## What a condition does -/

/-- Evaluates a condition and then one of two ways to go on; without a truth value nothing more is
    evaluated. -/
noncomputable def choosing (condition : Expr) (whenTrue whenFalse : Eval Value) : Eval Value := do
  match (← condition.evaluate).bind Number.truth? with
  | none => return none
  | some true => whenTrue
  | some false => whenFalse

noncomputable def evaluateBranch (choice : Bool) (e : Expr) : Eval Value := do
  let (whenTrue, whenFalse) ← branchesOf (.expr e) (e.step evaluate)
  evaluate (if choice then whenTrue else whenFalse)

theorem evaluate_condition (symbol : String) (c e : Expr) :
    (Expr.binary ⟨symbol, .condition⟩ c e).evaluate =
      choosing c (evaluateBranch true e) (evaluateBranch false e) := by
  have selects : (Expr.binary ⟨symbol, .condition⟩ c e).evaluate = (do
      let v ← c.evaluate
      selectBranch evaluate (.value v) (.expr e) (e.step evaluate) >>= evaluate) :=
    (evaluate_binary rfl c e).trans (bind_assoc _ _ _)
  rw [selects]
  simp only [pure_bind, selectBranch, Operand.evaluate, choosing]
  congr 1
  funext v
  cases v.bind Number.truth? with
  | none => exact (pure_bind _ _).trans (evaluate_literal none)
  | some choice =>
    cases choice <;> simp only [bind_assoc, pure_bind, evaluateBranch]

theorem runOn_choosing (condition : Expr) (whenTrue whenFalse : Eval Value) (s : Store) :
    (choosing condition whenTrue whenFalse).runOn s = match condition.evaluate.runOn s with
      | none => none
      | some (.error cause, u) => some (.error cause, u)
      | some (.ok v, u) =>
        match v.bind Number.truth? with
        | none => some (.ok none, u)
        | some true => whenTrue.runOn u
        | some false => whenFalse.runOn u := by
  rw [choosing, runOn_bind]
  rcases condition.evaluate.runOn s with _ | ⟨_ | v, u⟩
  · rfl
  · rfl
  · dsimp only
    rcases v.bind Number.truth? with _ | _ | _ <;> rfl

/-! ### Two branches -/

theorem evaluateBranch_alternatives (choice : Bool) (depth : Nat) (symbol : String) (t e : Expr) :
    evaluateBranch choice (parens^[depth] (.binary ⟨symbol, .alternatives⟩ t e)) =
      if choice then t.evaluate else e.evaluate := by
  have unwrapped : (parens^[depth] (.binary ⟨symbol, .alternatives⟩ t e)).unwrapped =
      .binary ⟨symbol, .alternatives⟩ t e := unwrapped_parens depth _
  have step : (parens^[depth] (.binary ⟨symbol, .alternatives⟩ t e)).step evaluate =
      pure (.branches t e) := by
    rw [step_unwrapped, unwrapped]
    rfl
  have inert : (parens^[depth] (.binary ⟨symbol, .alternatives⟩ t e)).isInert := by
    rw [isInert_unwrapped, unwrapped]
    rfl
  simp only [evaluateBranch, branchesOf, Operand.isInert, inert, step, if_true, pure_bind]
  cases choice <;> rfl

theorem evaluate_condition_alternatives (symbol separator : String) (depth : Nat) (c t e : Expr) :
    (Expr.binary ⟨symbol, .condition⟩ c
      (parens^[depth] (.binary ⟨separator, .alternatives⟩ t e))).evaluate =
      choosing c t.evaluate e.evaluate := by
  rw [evaluate_condition, evaluateBranch_alternatives, evaluateBranch_alternatives]
  rfl

/-! ### One branch -/

/-- Whether an expression is a pair of branches, or dereferences a cell that stands for one. -/
def IsPairIn (s : Store) (e : Expr) : Prop :=
  match e.unwrapped with
  | .branches _ _ => True
  | .binary o _ _ => o.action = .alternatives
  | .unary m operand => m.action = .definition ∧
      ∃ c a b, operand.unwrapped = .cell c ∧ s.definition c = .branches a b
  | _ => False

/-- Whether an expression binds a name. -/
def IsBinding (e : Expr) : Prop :=
  match e.unwrapped with
  | .binary o _ _ => o.action = .bind
  | _ => False

/-- Whether a condition with a single branch evaluates the branch only if it selects it. -/
def SelectsAlone (symbol : String) (e : Expr) : Prop :=
  ∀ c s, (∀ v u, c.evaluate.runOn s = some (.ok v, u) → ¬ e.IsPairIn u) →
    (Expr.binary ⟨symbol, .condition⟩ c e).evaluate.runOn s =
      (choosing c e.evaluate (pure none)).runOn s

/-- Whether a step in a store has no effect and gives no pair of branches, or gives a pair that
    evaluates as if there were none: the first branch as a pair does, the second one to void. -/
def StepsHarmlessly (s : Store) (e : Expr) : Prop :=
  (∃ r, (e.step evaluate).runOn s = some (.ok r, s) ∧ ∀ a b, r ≠ .branches a b) ∨
  ∃ a b t, (e.step evaluate).runOn s = some (.ok (.branches a b), t) ∧
    a.evaluate.runOn t = some (.error .strayBranches, t) ∧
    b.evaluate.runOn t = some (.ok none, s)

/-- Whether a single branch can be stepped before it is known to be selected. -/
def Harmless (e : Expr) : Prop :=
  e.isInert → ¬ e.IsBinding ∧ ∀ s, e.IsPairIn s ∨ e.StepsHarmlessly s

theorem selectsAlone_iff {symbol : String} {e : Expr} :
    e.SelectsAlone symbol ↔ ∀ s, e.IsPairIn s ∨
      (evaluateBranch true e).runOn s = e.evaluate.runOn s ∧
        (evaluateBranch false e).runOn s = some (.ok none, s) := by
  constructor
  · intro alone s
    by_cases pair : e.IsPairIn s
    · exact .inl pair
    · have law (b : Bool) := alone (.literal (some (.ofBool b))) s fun v u ends => by
        rw [evaluate_literal] at ends
        cases ends
        exact pair
      simp only [evaluate_condition, runOn_choosing, evaluate_literal, runOn_pure] at law
      exact .inr ⟨law true, law false⟩
  · intro branches c s unpaired
    rw [evaluate_condition, runOn_choosing, runOn_choosing]
    rcases ends : c.evaluate.runOn s with _ | ⟨_ | v, u⟩
    · rfl
    · rfl
    · obtain ⟨whenTrue, whenFalse⟩ := (branches u).resolve_left (unpaired v u ends)
      dsimp only
      rw [whenTrue, whenFalse]
      rfl

/-! ### Branches that are not inert -/

theorem evaluateBranch_of_not_isInert {e : Expr} (inert : e.isInert = false) (choice : Bool) :
    evaluateBranch choice e = evaluate (if choice then e else .void) := by
  simp only [evaluateBranch, branchesOf, Operand.isInert, inert]
  rfl

/-! ### Inert branches -/

def branch (choice : Bool) : Expr → Expr
  | .branches whenTrue whenFalse => if choice then whenTrue else whenFalse
  | e => if choice then e else .void

theorem branch_of_ne {r : Expr} (single : ∀ a b, r ≠ .branches a b) (choice : Bool) :
    r.branch choice = if choice then r else .void := by
  unfold branch
  split
  · exact absurd rfl (single _ _)
  · rfl

theorem evaluateBranch_of_isInert {e : Expr} (inert : e.isInert) (choice : Bool) :
    evaluateBranch choice e = (do (branch choice (← e.step evaluate)).evaluate) := by
  simp only [evaluateBranch, branchesOf, Operand.isInert, inert, if_true, bind_assoc]
  congr 1
  funext r
  cases r <;> rfl

theorem evaluate_of_not_isBinding {e : Expr} (inert : e.isInert) (notBinding : ¬ e.IsBinding) :
    e.evaluate = (do (← e.step evaluate).evaluate) := by
  rw [isInert_unwrapped] at inert
  rw [evaluate_unwrapped, step_unwrapped]
  unfold IsBinding at notBinding
  cases form : e.unwrapped with
  | literal v => rfl
  | branches a b => rfl
  | cell c => rw [form] at inert; cases inert
  | call f arguments => rw [form] at inert; cases inert
  | parens inner => exact absurd form (unwrapped_ne_parens e inner)
  | unary m operand =>
    rw [evaluate_eq_resolve]
    rfl
  | binary o left right =>
    rw [form] at notBinding
    rw [evaluate_eq_resolve, resolve]
    have binds : o.binds = false := by
      unfold Operator.binds
      split
      · exact absurd ‹_› notBinding
      · rfl
    simp only [binds]
    rfl

theorem harmless_iff_of_not_isBinding {e : Expr} (inert : e.isInert) (notBinding : ¬ e.IsBinding)
    (s : Store) : ((evaluateBranch true e).runOn s = e.evaluate.runOn s ∧
      (evaluateBranch false e).runOn s = some (.ok none, s)) ↔ e.StepsHarmlessly s := by
  rw [evaluateBranch_of_isInert inert, evaluateBranch_of_isInert inert,
    evaluate_of_not_isBinding inert notBinding]
  constructor
  · rintro ⟨whenTrue, whenFalse⟩
    obtain ⟨r, t, stepped, skipped⟩ : ∃ r t, (e.step evaluate).runOn s = some (.ok r, t) ∧
        (r.branch false).evaluate.runOn t = some (.ok none, s) := by
      rcases runOn_bind_eq_some.1 whenFalse with found | ⟨_, _, impossible⟩
      · exact found
      · cases impossible
    rw [runOn_bind_ok stepped, runOn_bind_ok stepped] at whenTrue
    by_cases single : ∀ a b, r ≠ .branches a b
    · rw [branch_of_ne single] at skipped
      have same := skipped.symm.trans (congrFun (evaluate_literal none) t)
      cases same
      exact .inl ⟨r, stepped, single⟩
    · simp only [ne_eq, not_forall, not_not] at single
      obtain ⟨a, b, rfl⟩ := single
      rw [evaluate_branches] at whenTrue
      exact .inr ⟨a, b, t, stepped, whenTrue, skipped⟩
  · rintro (⟨r, stepped, single⟩ | ⟨a, b, t, stepped, stray, skipped⟩)
    · rw [runOn_bind_ok stepped, runOn_bind_ok stepped, runOn_bind_ok stepped,
        branch_of_ne single, branch_of_ne single]
      exact ⟨rfl, congrFun (evaluate_literal none) s⟩
    · rw [runOn_bind_ok stepped, runOn_bind_ok stepped, runOn_bind_ok stepped, evaluate_branches]
      exact ⟨stray, skipped⟩

/-! ### Bindings -/

theorem evaluate_of_isBinding {e : Expr} (binding : e.IsBinding) :
    e.evaluate = (do let _ ← e.step evaluate; return none) := by
  rw [evaluate_unwrapped, step_unwrapped]
  unfold IsBinding at binding
  split at binding
  · rename_i o left right form
    rw [form, evaluate_eq_resolve, resolve]
    have binds : o.binds := by simp [Operator.binds, binding]
    simp only [binds]
    rfl
  · exact binding.elim

theorem isInert_of_isBinding {e : Expr} (binding : e.IsBinding) : e.isInert := by
  rw [isInert_unwrapped]
  unfold IsBinding at binding
  split at binding
  · rename_i o left right form
    rw [form]
    simp [isInert, Operator.isDeferred, binding, Operator.Action.strictness]
  · exact binding.elim

theorem not_isPairIn_of_isBinding {e : Expr} (binding : e.IsBinding) (s : Store) :
    ¬ e.IsPairIn s := by
  unfold IsBinding at binding
  unfold IsPairIn
  split at binding
  · rename_i o left right form
    rw [form]
    simp [binding]
  · exact binding.elim

theorem exists_target_of_isBinding {e : Expr} (binding : e.IsBinding) :
    ∃ target, ∀ s r t, (e.step evaluate).runOn s = some (.ok r, t) →
      r = target ∧ target.isVariable := by
  unfold IsBinding at binding
  split at binding
  · rename_i o left right form
    refine ⟨left, fun s r t stepped => ?_⟩
    rw [step_unwrapped, form] at stepped
    simp only [step, binding, Operator.Action.strictness, Strictness.evaluatesLeft,
      Strictness.evaluatesRight, Operand.obtain, Operator.applyWith, pure_bind, Operand.target,
      Bool.false_eq_true, if_false] at stepped
    cases isVariable : left.isVariable with
    | false =>
      rw [isVariable] at stepped
      cases stepped
    | true =>
      rw [isVariable] at stepped
      have result (definition : Eval Expr) (ends : (do
          let d ← definition
          left.assign d
          return left).runOn s = some (.ok r, t)) : r = left := by
        obtain ⟨d, u, _, ends⟩ := (runOn_bind_eq_some.1 ends).resolve_right (by simp)
        obtain ⟨_, _, _, ends⟩ := (runOn_bind_eq_some.1 ends).resolve_right (by simp)
        cases ends
        rfl
      refine ⟨?_, rfl⟩
      cases inert : right.isInert with
      | true =>
        simp only [Operand.isInert, inert, if_true] at stepped
        exact result _ stepped
      | false =>
        simp only [Operand.isInert, inert] at stepped
        exact result (pure right) stepped
  · exact binding.elim

theorem exists_value_of_isVariable : ∀ {e : Expr}, e.isVariable →
    ∃ s v t, e.evaluate.runOn s = some (.ok (some v), t)
  | .parens inner, isVariable => by
    rw [evaluate_parens]
    exact exists_value_of_isVariable (e := inner) isVariable
  | .cell c, _ => by
    let five : Expr := .literal (some (.integer 5))
    have space : ¬ readLimit ≤ (Store.define {} c five).readDepth c := Nat.not_succ_le_zero 127
    have definition : ((Store.define {} c five).enterRead c).definition c = five :=
      (Store.definition_define {} c c five).trans (if_pos rfl)
    refine ⟨Store.define {} c five, .integer 5,
      ((Store.define {} c five).enterRead c).leaveRead c, ?_⟩
    rw [evaluate_eq_resolve]
    change (reading c _).runOn _ = _
    rw [runOn_reading, if_neg space, runOn_bind_ok (runOn_definition c _), definition,
      evaluate_literal]
    rfl

theorem not_selectsAlone_of_isBinding {symbol : String} {e : Expr} (binding : e.IsBinding) :
    ¬ e.SelectsAlone symbol := by
  intro alone
  rw [selectsAlone_iff] at alone
  obtain ⟨target, targets⟩ := exists_target_of_isBinding binding
  have law (s : Store) := (alone s).resolve_left (not_isPairIn_of_isBinding binding s)
  rw [evaluateBranch_of_isInert (isInert_of_isBinding binding),
    evaluateBranch_of_isInert (isInert_of_isBinding binding), evaluate_of_isBinding binding] at law
  have single (isVariable : target.isVariable) (a b : Expr) : target ≠ .branches a b := by
    rintro rfl
    cases isVariable
  -- The step leaves every store as it is, since it is taken when the branch is not selected, too.
  have stepped (s : Store) :
      (e.step evaluate).runOn s = some (.ok target, s) ∧ target.isVariable := by
    obtain ⟨r, t, ends, skipped⟩ := (runOn_bind_eq_some.1 (law s).2).resolve_right (by simp)
    obtain ⟨rfl, isVariable⟩ := targets s r t ends
    rw [branch_of_ne (single isVariable)] at skipped
    cases skipped.symm.trans (congrFun (evaluate_literal none) t)
    exact ⟨ends, isVariable⟩
  obtain ⟨s, v, t, value⟩ := exists_value_of_isVariable (stepped {}).2
  have bound := (law s).1
  rw [runOn_bind_ok (stepped s).1, runOn_bind_ok (stepped s).1,
    branch_of_ne (single (stepped s).2)] at bound
  cases value.symm.trans bound

theorem selectsAlone_iff_harmless {symbol : String} {e : Expr} :
    e.SelectsAlone symbol ↔ e.Harmless := by
  by_cases binding : e.IsBinding
  · exact iff_of_false (not_selectsAlone_of_isBinding binding) fun harmless =>
      (harmless (isInert_of_isBinding binding)).1 binding
  · rw [selectsAlone_iff]
    cases inert : e.isInert with
    | false =>
      refine iff_of_true (fun s => .inr ?_) fun impossible => ?_
      · rw [evaluateBranch_of_not_isInert inert, evaluateBranch_of_not_isInert inert]
        exact ⟨rfl, congrFun (evaluate_literal none) s⟩
      · rw [inert] at impossible
        cases impossible
    | true =>
      simp only [harmless_iff_of_not_isBinding inert binding]
      exact ⟨fun steps _ => ⟨binding, steps⟩, fun harmless => (harmless inert).2⟩

theorem selectsAlone_dereference (symbol : String) (name : String) (side : Side) (c : Cell) :
    SelectsAlone symbol (.unary ⟨name, side, .definition⟩ (.cell c)) := by
  refine selectsAlone_iff_harmless.2 fun _ => ⟨id, fun s => ?_⟩
  by_cases pair : ∃ a b, s.definition c = .branches a b
  · obtain ⟨a, b, pair⟩ := pair
    exact .inl ⟨rfl, c, a, b, rfl, pair⟩
  · exact .inr (.inl ⟨s.definition c, rfl, fun a b same => pair ⟨a, b, same⟩⟩)

/-! ## Main result -/

/-- With two branches a condition evaluates only what it selects.  With one branch it does so exactly
    if the branch is harmless, as the dereference of a cell is and a binding never is. -/
theorem condition_evaluates_selected (symbol separator : String) (depth : Nat) (c t e : Expr) :
    (Expr.binary ⟨symbol, .condition⟩ c
        (parens^[depth] (.binary ⟨separator, .alternatives⟩ t e))).evaluate =
      choosing c t.evaluate e.evaluate ∧
    (t.SelectsAlone symbol ↔ t.Harmless) ∧
    (∀ (name : String) (side : Side) (cell : Cell),
      SelectsAlone symbol (.unary ⟨name, side, .definition⟩ (.cell cell))) ∧
    ∀ (name : String) (target : Expr),
      ¬ SelectsAlone symbol (parens^[depth] (.binary ⟨name, .bind⟩ target e)) := by
  refine ⟨evaluate_condition_alternatives .., selectsAlone_iff_harmless,
    fun name side cell => selectsAlone_dereference symbol name side cell, fun name target => ?_⟩
  apply not_selectsAlone_of_isBinding
  rw [IsBinding, unwrapped_parens]
  rfl

/-- After `x = 1` and `0 ? (x := 5)` the line `x` shows 5. -/
theorem unselected_binding_binds :
    ¬ SelectsAlone "?" (.parens (.binary ⟨":=", .bind⟩ (.cell ⟨4, "x", .variable⟩)
      (.literal (some (.integer 5))))) ∧
    (do
      let (_, s) ← (Session.start Grammar.standard).run 8 "x = 1"
      let (_, s) ← s.run 8 "0 ? (x := 5)"
      let (answer, _) ← s.run 8 "x"
      return answer.toOption.map Reply.shown) = some (some "5\n") :=
  ⟨not_selectsAlone_of_isBinding rfl, by decide +kernel⟩

end Expr

end Abacus
