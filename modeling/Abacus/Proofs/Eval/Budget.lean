import Abacus.Proofs.Eval.Invariant

/-!
# Evaluation without a budget

An evaluator that answers more makes a computation end more often, and never
otherwise.  So a larger budget never changes an outcome, and an expression has an
outcome of its own: `Expr.evaluate` ends as any sufficient budget ends, and
`Expr.evaluate_eq_resolve` is its equation.
-/

namespace Abacus

open Eval

namespace Eval

variable {α β : Type}

/-- Whatever the first computation ends with, the second one ends with too. -/
def Below (m m' : Eval α) : Prop := ∀ s o, m.runOn s = some o → m'.runOn s = some o

theorem Below.refl (m : Eval α) : Below m m := fun _ _ ends => ends

theorem Below.bind {m m' : Eval α} {f f' : α → Eval β} (first : Below m m')
    (second : ∀ a, Below (f a) (f' a)) : Below (m >>= f) (m' >>= f') := by
  rintro s ⟨r, t⟩ ends
  rcases runOn_bind_eq_some.1 ends with ⟨a, u, left, right⟩ | ⟨cause, failed, rfl⟩
  · rw [runOn_bind_ok (first _ _ left)]
    exact second a _ _ right
  · exact runOn_bind_error (first _ _ failed) _

theorem Below.reading {m m' : Eval α} (below : Below m m') (c : Cell) :
    Below (reading c m) (reading c m') := by
  intro s o ends
  rw [runOn_reading] at ends ⊢
  split at ends
  · rwa [if_pos ‹_›]
  · rw [if_neg ‹_›]
    obtain ⟨inner, runs, rfl⟩ := Option.map_eq_some_iff.1 ends
    exact Option.map_eq_some_iff.2 ⟨inner, below _ _ runs, rfl⟩

theorem Below.calling {m m' : Eval α} (below : Below m m') (u : UserFunction)
    (arguments : List Value) : Below (calling u arguments m) (calling u arguments m') := by
  intro s o ends
  rw [runOn_calling] at ends ⊢
  split at ends
  · rwa [if_pos ‹_›]
  · rw [if_neg ‹_›]
    obtain ⟨inner, runs, rfl⟩ := Option.map_eq_some_iff.1 ends
    exact Option.map_eq_some_iff.2 ⟨inner, below _ _ runs, rfl⟩

end Eval

namespace Invariant

variable {α : Type} {I : Invariant} {may : Expr → Prop} {P : α → Prop} {F : Evaluator → Eval α}

/-- Where an invariant is kept, an evaluator may be replaced by one that answers more. -/
theorem Asking.mono (kept : I.Kept) {eval eval' : Evaluator} (evaluator : I.KeptBy eval)
    (below : ∀ e, Below (eval e) (eval' e)) (asking : Asking I may P F) {s : Store}
    (before : I.holds s) {o : Except EvalError α × Store} (ends : (F eval).runOn s = some o) :
    (F eval').runOn s = some o := by
  induction asking generalizing s with
  | result _ | failure _ | definition _ _ | define _ _ _ => exact ends
  | ask _ _ => exact below _ _ _ ends
  | read _ => exact ((Below.refl _).bind below).reading _ _ _ ends
  | call _ _ => exact ((Below.refl _).bind fun _ => below _).calling _ _ _ _ ends
  | bind asking _ first second =>
    obtain ⟨r, t⟩ := o
    rcases runOn_bind_eq_some.1 ends with ⟨a, u, left, right⟩ | ⟨cause, failed, rfl⟩
    · obtain ⟨between, _, good⟩ := asking.keeps kept evaluator s _ u before left
      rw [runOn_bind_ok (first before left)]
      exact second a (good a rfl) between right
    · exact runOn_bind_error (first before failed) _

theorem trivial_keptBy (eval : Evaluator) : trivial.KeptBy eval :=
  fun _ _ _ _ _ _ _ => ⟨True.intro, True.intro, fun _ _ => True.intro⟩

end Invariant

namespace Expr

open Invariant (trivial_kept trivial_keptBy)

theorem resolve_asking (e : Expr) :
    Invariant.Asking .trivial (fun _ => True) (fun _ => True) fun eval => e.resolve eval :=
  .resolve trivial_kept True.intro (fun _ _ => True.intro) fun _ _ _ => True.intro

theorem resolve_below {eval eval' : Evaluator} (below : ∀ e, Below (eval e) (eval' e)) (e : Expr) :
    Below (e.resolve eval) (e.resolve eval') := fun _ _ ends =>
  (resolve_asking e).mono trivial_kept (trivial_keptBy eval) below True.intro ends

theorem eval_below_of_le {budget larger : Nat} (le : budget ≤ larger) (e : Expr) :
    Below (eval budget e) (eval larger e) := by
  induction larger generalizing budget e with
  | zero =>
    cases Nat.le_zero.1 le
    exact Below.refl _
  | succ larger inductionHypothesis =>
    cases budget with
    | zero => exact fun _ _ ends => nomatch ends
    | succ budget => exact resolve_below (inductionHypothesis (Nat.le_of_succ_le_succ le)) e

open Classical in
/-- Evaluates an expression with a budget that suffices; there is no outcome if none does. -/
noncomputable def evaluate : Evaluator := fun e s =>
  if enough : ∃ budget, (eval budget e).runOn s ≠ none
  then (eval enough.choose e).runOn s
  else none

open Classical in
theorem evaluate_eq_some_iff {e : Expr} {s : Store} {o : Except EvalError Value × Store} :
    e.evaluate.runOn s = some o ↔ ∃ budget, (eval budget e).runOn s = some o := by
  change (if enough : ∃ budget, (eval budget e).runOn s ≠ none then
    (eval enough.choose e).runOn s else none) = some o ↔ _
  constructor
  · intro ends
    split at ends
    · exact ⟨_, ends⟩
    · cases ends
  · rintro ⟨budget, ends⟩
    have enough : ∃ budget, (eval budget e).runOn s ≠ none := ⟨budget, by simp [ends]⟩
    rw [dif_pos enough]
    obtain ⟨other, chosen⟩ := Option.ne_none_iff_exists'.1 enough.choose_spec
    rcases Nat.le_total budget enough.choose with le | le
    · exact eval_below_of_le le e s o ends
    · rw [chosen, ← ends, eval_below_of_le le e s other chosen]

theorem evaluate_eq_none_iff {e : Expr} {s : Store} :
    e.evaluate.runOn s = none ↔ ∀ budget, (eval budget e).runOn s = none := by
  simp only [Option.eq_none_iff_forall_not_mem, Option.mem_def, evaluate_eq_some_iff, not_exists]
  exact ⟨fun never budget o => never o budget, fun never o budget => never budget o⟩

theorem eval_below_evaluate (budget : Nat) (e : Expr) : Below (eval budget e) e.evaluate :=
  fun _ _ ends => evaluate_eq_some_iff.2 ⟨budget, ends⟩

end Expr

namespace Invariant

variable {α : Type} {I : Invariant} {may : Expr → Prop} {P : α → Prop} {F : Evaluator → Eval α}

theorem Kept.eval (kept : I.Kept) (budget : Nat) : I.KeptBy (Expr.eval budget) := by
  induction budget with
  | zero => exact fun e _ s r t _ ends => nomatch ends
  | succ budget inductionHypothesis =>
    intro e admitted
    have asking : Asking I (fun _ => True) (fun _ => True) fun eval => e.resolve eval :=
      .resolve kept admitted (fun _ _ => True.intro) fun _ _ _ => True.intro
    exact asking.keeps kept inductionHypothesis

theorem Kept.evaluate (kept : I.Kept) : I.KeptBy Expr.evaluate := by
  intro e admitted s r t before ends
  obtain ⟨budget, ends⟩ := Expr.evaluate_eq_some_iff.1 ends
  exact kept.eval budget e admitted s r t before ends

/-- A computation that ends has asked finitely often, so some budget suffices for it. -/
theorem Asking.exists_budget (kept : I.Kept) (asking : Asking I may P F) {s : Store}
    (before : I.holds s) {o : Except EvalError α × Store}
    (ends : (F Expr.evaluate).runOn s = some o) :
    ∃ budget, (F (Expr.eval budget)).runOn s = some o := by
  have larger {m n : Nat} (le : m ≤ n) {β : Type} {Q : β → Prop} {G : Evaluator → Eval β}
      (asking : Asking I may Q G) {s : Store} (before : I.holds s)
      {o : Except EvalError β × Store} (ends : (G (Expr.eval m)).runOn s = some o) :
      (G (Expr.eval n)).runOn s = some o :=
    asking.mono kept (kept.eval m) (Expr.eval_below_of_le le) before ends
  induction asking generalizing s with
  | result _ | failure _ | definition _ _ | define _ _ _ => exact ⟨0, ends⟩
  | ask _ _ => exact Expr.evaluate_eq_some_iff.1 ends
  | @read c _ =>
    simp only [runOn_reading] at ends ⊢
    split at ends
    · exact ⟨0, by rwa [if_pos ‹_›]⟩
    · simp only [if_neg ‹¬ _›]
      obtain ⟨inner, runs, rfl⟩ := Option.map_eq_some_iff.1 ends
      rw [runOn_bind_ok (runOn_definition c _)] at runs
      obtain ⟨budget, runs⟩ := Expr.evaluate_eq_some_iff.1 runs
      refine ⟨budget, Option.map_eq_some_iff.2 ⟨inner, ?_, rfl⟩⟩
      rwa [runOn_bind_ok (runOn_definition c _)]
  | call arguments _ =>
    simp only [runOn_calling] at ends ⊢
    split at ends
    · exact ⟨0, by rwa [if_pos ‹_›]⟩
    · simp only [if_neg ‹¬ _›]
      obtain ⟨inner, runs, rfl⟩ := Option.map_eq_some_iff.1 ends
      rw [runOn_bind_ok (runOn_get _)] at runs
      obtain ⟨budget, runs⟩ := Expr.evaluate_eq_some_iff.1 runs
      refine ⟨budget, Option.map_eq_some_iff.2 ⟨inner, ?_, rfl⟩⟩
      rwa [runOn_bind_ok (runOn_get _)]
  | bind asking askingSecond first second =>
    obtain ⟨r, t⟩ := o
    rcases runOn_bind_eq_some.1 ends with ⟨a, u, left, right⟩ | ⟨cause, failed, rfl⟩
    · obtain ⟨between, _, good⟩ := asking.keeps kept kept.evaluate s _ u before left
      obtain ⟨m, left⟩ := first before left
      obtain ⟨n, right⟩ := second a (good a rfl) between right
      refine ⟨max m n, ?_⟩
      rw [runOn_bind_ok (larger (Nat.le_max_left m n) asking before left)]
      exact larger (Nat.le_max_right m n) (askingSecond a (good a rfl)) between right
    · obtain ⟨m, failed⟩ := first before failed
      exact ⟨m, runOn_bind_error failed _⟩

end Invariant

namespace Expr

theorem evaluate_eq_resolve (e : Expr) : e.evaluate = e.resolve evaluate := by
  funext s
  apply Option.ext
  intro o
  constructor
  · intro ends
    obtain ⟨budget, ends⟩ := evaluate_eq_some_iff.1 ends
    cases budget with
    | zero => cases ends
    | succ budget => exact resolve_below (eval_below_evaluate budget) e s o ends
  · intro ends
    obtain ⟨budget, ends⟩ :=
      (resolve_asking e).exists_budget Invariant.trivial_kept True.intro ends
    exact evaluate_eq_some_iff.2 ⟨budget + 1, ends⟩

end Expr

end Abacus
