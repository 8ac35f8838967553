import Abacus.Proofs.Eval.Budget

/-!
# Evaluations that need each other

One evaluation needs another if it fails as soon as the other fails, and with the
same error.  So an error goes up a chain of needs, and an endless chain does not
end.  Conversely an evaluation that does not end needs one that does not end
either, which is found among those that it asks for.
-/

namespace Abacus

open Eval

structure Evaluation where
  expr : Expr
  store : Store

namespace Evaluation

/-- Whether some budget suffices for an evaluation. -/
def Ends (x : Evaluation) : Prop := ∃ budget o, (x.expr.eval budget).runOn x.store = some o

/-- Whether an evaluation ends with a given error. -/
def FailsWith (x : Evaluation) (cause : EvalError) : Prop :=
  ∃ budget t, (x.expr.eval budget).runOn x.store = some (.error cause, t)

theorem ends_iff {x : Evaluation} : x.Ends ↔ x.expr.evaluate.runOn x.store ≠ none := by
  rw [Option.ne_none_iff_exists']
  constructor
  · rintro ⟨budget, o, ends⟩
    exact ⟨o, Expr.evaluate_eq_some_iff.2 ⟨budget, ends⟩⟩
  · rintro ⟨o, ends⟩
    obtain ⟨budget, ends⟩ := Expr.evaluate_eq_some_iff.1 ends
    exact ⟨budget, o, ends⟩

theorem not_ends_iff {x : Evaluation} : ¬ x.Ends ↔ x.expr.evaluate.runOn x.store = none := by
  rw [ends_iff, Classical.not_not]

theorem failsWith_iff {x : Evaluation} {cause : EvalError} :
    x.FailsWith cause ↔ ∃ t, x.expr.evaluate.runOn x.store = some (.error cause, t) := by
  constructor
  · rintro ⟨budget, t, fails⟩
    exact ⟨t, Expr.evaluate_eq_some_iff.2 ⟨budget, fails⟩⟩
  · rintro ⟨t, fails⟩
    obtain ⟨budget, fails⟩ := Expr.evaluate_eq_some_iff.1 fails
    exact ⟨budget, t, fails⟩

open Classical in
/-- Evaluates expressions, except that one evaluation fails with a given cause and leaves a
    given store. -/
noncomputable def failing (y : Evaluation) (cause : EvalError) (t : Store) : Evaluator := fun e s =>
  if ⟨e, s⟩ = y then some (.error cause, t) else e.evaluate s

/-- Whether an evaluation fails as soon as another one fails, and with the same error. -/
def Needs (x y : Evaluation) : Prop :=
  ∀ cause t, ∃ t', (x.expr.resolve (y.failing cause t)).runOn x.store = some (.error cause, t')

theorem failing_self (y : Evaluation) (cause : EvalError) (t : Store) :
    (y.failing cause t y.expr).runOn y.store = some (.error cause, t) := if_pos rfl

theorem below_failing {eval : Evaluator} (below : ∀ e, Below (eval e) e.evaluate) {y : Evaluation}
    (unanswered : (eval y.expr).runOn y.store = none) (cause : EvalError) (t : Store) (e : Expr) :
    Below (eval e) (y.failing cause t e) := by
  intro s o ends
  by_cases same : (⟨e, s⟩ : Evaluation) = y
  · subst same
    cases unanswered.symm.trans ends
  · exact (if_neg same).trans (below e s o ends)

/-! ## Chains of needs -/

theorem Needs.eval_ne_none {x y : Evaluation} (needs : x.Needs y) {budget : Nat}
    (ends : (x.expr.eval (budget + 1)).runOn x.store ≠ none) :
    (y.expr.eval budget).runOn y.store ≠ none := by
  intro unanswered
  obtain ⟨o, ends⟩ := Option.ne_none_iff_exists'.1 ends
  have outcome (cause : EvalError) : ∃ t, o = (.error cause, t) := by
    obtain ⟨t, fails⟩ := needs cause x.store
    have below := below_failing (Expr.eval_below_evaluate budget) unanswered cause x.store
    have same := Expr.resolve_below below x.expr x.store o ends
    exact ⟨t, Option.some.inj (same.symm.trans fails)⟩
  obtain ⟨t, first⟩ := outcome .divisionByZero
  obtain ⟨t', second⟩ := outcome .strayBranches
  cases first.symm.trans second

theorem Needs.failsWith {x y : Evaluation} (needs : x.Needs y) {cause : EvalError}
    (fails : y.FailsWith cause) : x.FailsWith cause := by
  obtain ⟨t, fails⟩ := failsWith_iff.1 fails
  obtain ⟨t', propagated⟩ := needs cause t
  have same : y.failing cause t = Expr.evaluate := by
    funext e s
    by_cases here : (⟨e, s⟩ : Evaluation) = y
    · subst here
      exact (if_pos rfl).trans fails.symm
    · exact if_neg here
  rw [same, ← Expr.evaluate_eq_resolve] at propagated
  exact failsWith_iff.2 ⟨t', propagated⟩

/-- Evaluations that each need another one of them do not end. -/
theorem not_ends_of_needs {P : Evaluation → Prop} (next : ∀ x, P x → ∃ y, P y ∧ x.Needs y)
    {x : Evaluation} (start : P x) : ¬ x.Ends := by
  rintro ⟨budget, o, ends⟩
  induction budget generalizing x o with
  | zero => cases ends
  | succ budget inductionHypothesis =>
    obtain ⟨y, again, needs⟩ := next x start
    have answered := needs.eval_ne_none (by rw [ends]; exact Option.some_ne_none o)
    obtain ⟨o', ends'⟩ := Option.ne_none_iff_exists'.1 answered
    exact inductionHypothesis again o' ends'

theorem not_ends_of_chain {chain : Nat → Evaluation}
    (needs : ∀ i, (chain i).Needs (chain (i + 1))) : ¬ (chain 0).Ends := by
  refine not_ends_of_needs (P := fun x => ∃ i, x = chain i) ?_ ⟨0, rfl⟩
  rintro x ⟨i, rfl⟩
  exact ⟨chain (i + 1), ⟨i + 1, rfl⟩, needs i⟩

/-! ### Needs of some forms -/

theorem needs_definition {c : Cell} {s : Store} (space : s.readDepth c < readLimit) :
    Needs ⟨.cell c, s⟩ ⟨s.definition c, s.enterRead c⟩ := by
  intro cause t
  refine ⟨t.leaveRead c, ?_⟩
  change (reading c _).runOn s = _
  rw [runOn_reading, if_neg (Nat.not_le.2 space), runOn_bind_ok (runOn_definition c _)]
  exact congrArg _ (failing_self ⟨s.definition c, s.enterRead c⟩ cause t)

theorem needs_left {o : Operator} (eager : o.action.strictness.evaluatesLeft) (a b : Expr)
    (s : Store) : Needs ⟨.binary o a b, s⟩ ⟨a, s⟩ := by
  intro cause t
  refine ⟨t, runOn_bind_error ?_ _⟩
  rw [Expr.step_binary, eager]
  exact runOn_bind_error (runOn_bind_error (failing_self ⟨a, s⟩ cause t) _) _

theorem needs_dereferenced {m : Modifier} (definition : m.action = .definition) (c : Cell)
    (s : Store) : Needs ⟨.unary m (.cell c), s⟩ ⟨s.definition c, s⟩ := by
  intro cause t
  refine ⟨t, ?_⟩
  have step (eval : Evaluator) :
      ((Expr.unary m (.cell c)).step eval).runOn s = some (.ok (s.definition c), s) := by
    simp only [Expr.step, Modifier.applyWith, definition]
    rfl
  exact (runOn_bind_ok (step _) _).trans (failing_self ⟨s.definition c, s⟩ cause t)

/-! ## What is asked -/

/-- What a computation asks for when it has come to a store. -/
inductive AskedAt (I : Invariant) (may : Expr → Prop) (s : Store) : Evaluation → Prop where
  | here {e : Expr} : I.admits e → may e → AskedAt I may s ⟨e, s⟩
  | read {c : Cell} : I.admits (.cell c) → s.readDepth c < readLimit →
      AskedAt I may s ⟨s.definition c, s.enterRead c⟩
  | call {u : UserFunction} {es : List Expr} (arguments : List Value) :
      I.admits (.call (.user u) es) → s.callDepth u < callLimit →
      AskedAt I may s ⟨(enterCall s u arguments).body u, enterCall s u arguments⟩

variable {I : Invariant} {may : Expr → Prop}

theorem AskedAt.keeps (kept : I.Kept) {s : Store} (before : I.holds s) {y : Evaluation}
    (asked : AskedAt I may s y) : I.holds y.store ∧ I.admits y.expr := by
  cases asked with
  | here admitted _ => exact ⟨before, admitted⟩
  | read admitted room =>
    obtain ⟨inside, _⟩ := kept.reading before admitted room
    exact ⟨inside, kept.definition before admitted⟩
  | call arguments admitted room =>
    obtain ⟨inside, body, _⟩ := kept.calling arguments before admitted room
    exact ⟨inside, body⟩

end Evaluation

open Evaluation

/-- A computation that does not end asks for an evaluation that does not end, and fails as soon
    as that one fails. -/
theorem Invariant.Asking.exists_needed {α : Type} {I : Invariant} (kept : I.Kept)
    {may : Expr → Prop} {P : α → Prop} {F : Evaluator → Eval α} (asking : I.Asking may P F)
    {s : Store} (before : I.holds s) (stuck : (F Expr.evaluate).runOn s = none) :
    ∃ u y, I.holds u ∧ I.relates s u ∧ AskedAt I may u y ∧ ¬ y.Ends ∧
      ∀ cause t, ∃ t', (F (y.failing cause t)).runOn s = some (.error cause, t') := by
  induction asking generalizing s with
  | result _ | failure _ | definition _ _ | define _ _ _ => cases stuck
  | @ask e admitted asked =>
    exact ⟨s, ⟨e, s⟩, before, kept.refl s, .here admitted asked, not_ends_iff.2 stuck,
      fun cause t => ⟨t, failing_self ⟨e, s⟩ cause t⟩⟩
  | @read c admitted =>
    simp only [runOn_reading] at stuck ⊢
    split at stuck
    · cases stuck
    · rename_i room
      simp only [if_neg room]
      rw [Option.map_eq_none_iff, runOn_bind_ok (runOn_definition c _)] at stuck
      refine ⟨s, ⟨s.definition c, s.enterRead c⟩, before, kept.refl s,
        .read admitted (Nat.lt_of_not_le room), not_ends_iff.2 stuck, fun cause t => ?_⟩
      refine ⟨t.leaveRead c, Option.map_eq_some_iff.2 ⟨(.error cause, t), ?_, rfl⟩⟩
      rw [runOn_bind_ok (runOn_definition c _)]
      exact failing_self ⟨s.definition c, s.enterRead c⟩ cause t
  | @call u es arguments admitted =>
    simp only [runOn_calling] at stuck ⊢
    split at stuck
    · cases stuck
    · rename_i room
      simp only [if_neg room]
      rw [Option.map_eq_none_iff, runOn_bind_ok (runOn_get _)] at stuck
      refine ⟨s, ⟨_, enterCall s u arguments⟩, before, kept.refl s,
        .call arguments admitted (Nat.lt_of_not_le room), not_ends_iff.2 stuck, fun cause t => ?_⟩
      refine ⟨leaveCall s u t, Option.map_eq_some_iff.2 ⟨(.error cause, t), ?_, rfl⟩⟩
      rw [runOn_bind_ok (runOn_get _)]
      exact failing_self ⟨_, enterCall s u arguments⟩ cause t
  | bind asking _ first second =>
    rcases runOn_bind_eq_none.1 stuck with stuck | ⟨a, u, left, stuck⟩
    · obtain ⟨u, y, between, related, asked, endless, fails⟩ := first before stuck
      refine ⟨u, y, between, related, asked, endless, fun cause t => ?_⟩
      obtain ⟨t', fails⟩ := fails cause t
      exact ⟨t', runOn_bind_error fails _⟩
    · obtain ⟨between, related, good⟩ := asking.keeps kept kept.evaluate s _ u before left
      obtain ⟨w, y, after, related', asked, endless, fails⟩ := second a (good a rfl) between stuck
      refine ⟨w, y, after, kept.trans related related', asked, endless, fun cause t => ?_⟩
      obtain ⟨t', fails⟩ := fails cause t
      -- The first part has ended, so it is the same if only what does not end fails.
      have below := below_failing (fun e => Below.refl e.evaluate) (not_ends_iff.1 endless) cause t
      refine ⟨t', ?_⟩
      rw [runOn_bind_ok (asking.mono kept kept.evaluate below before left)]
      exact fails

theorem Evaluation.exists_needed {I : Invariant} (kept : I.Kept) {may : Expr → Prop} {x : Evaluation}
    (asking : I.Asking may (fun _ => True) fun eval => x.expr.resolve eval)
    (before : I.holds x.store) (endless : ¬ x.Ends) :
    ∃ u y, I.holds u ∧ I.relates x.store u ∧ AskedAt I may u y ∧ ¬ y.Ends ∧ x.Needs y := by
  rw [not_ends_iff, Expr.evaluate_eq_resolve] at endless
  exact asking.exists_needed kept before endless

end Abacus
