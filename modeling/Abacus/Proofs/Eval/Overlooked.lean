import Abacus.Proofs.Eval.Borrowing

/-!
# Differences that evaluations overlook

An evaluation comes to know of a store only what cells and functions stand for and how many reads
and calls are under way.  Stores may differ in anything else, and in functions that are not called.
Evaluations have the same outcome on both of them then, and leave such stores behind.
-/

namespace Abacus

open Eval

/-! ## Outcomes -/

namespace Eval

variable {α β : Type} {R : Store → Store → Prop}

/-- Whether two evaluations give the same result or the same error and leave related stores behind,
    or neither of them ends. -/
def SameOutcome (R : Store → Store → Prop) : (o o' : Option (Except EvalError α × Store)) → Prop :=
  Option.Rel fun (r, t) (r', t') => r = r' ∧ R t t'

namespace SameOutcome

theorem ended {t t' : Store} (related : R t t') (r : Except EvalError α) :
    SameOutcome R (some (r, t)) (some (r, t')) :=
  .some ⟨rfl, related⟩

theorem eq_none {o' : Option (Except EvalError α × Store)} (same : SameOutcome R none o') :
    o' = none := by
  cases same
  rfl

theorem exists_eq_some {r : Except EvalError α} {t : Store}
    {o' : Option (Except EvalError α × Store)} (same : SameOutcome R (some (r, t)) o') :
    ∃ t', o' = some (r, t') ∧ R t t' := by
  rcases same with ⟨rfl, related⟩
  exact ⟨_, rfl, related⟩

theorem bind {m m' : Eval α} {f f' : α → Eval β} {s s' : Store}
    (first : SameOutcome R (m.runOn s) (m'.runOn s'))
    (second : ∀ a t t', m.runOn s = some (.ok a, t) → R t t' →
      SameOutcome R ((f a).runOn t) ((f' a).runOn t')) :
    SameOutcome R ((m >>= f).runOn s) ((m' >>= f').runOn s') := by
  cases ends : m.runOn s with
  | none =>
    rw [ends] at first
    rw [runOn_bind_eq_none.2 (.inl ends), runOn_bind_eq_none.2 (.inl first.eq_none)]
    exact .none
  | some o =>
    obtain ⟨r, t⟩ := o
    rw [ends] at first
    obtain ⟨t', ends', related⟩ := first.exists_eq_some
    cases r with
    | error cause =>
      rw [runOn_bind_error ends, runOn_bind_error ends']
      exact .ended related _
    | ok a =>
      rw [runOn_bind_ok ends, runOn_bind_ok ends']
      exact second a t t' ends related

theorem map {o o' : Option (Except EvalError α × Store)} {change change' : Store → Store}
    (same : SameOutcome R o o') (changed : ∀ t t', R t t' → R (change t) (change' t')) :
    SameOutcome R (o.map fun (r, t) => (r, change t)) (o'.map fun (r, t) => (r, change' t)) := by
  cases same with
  | none => exact .none
  | some both => exact .some ⟨both.1, changed _ _ both.2⟩

end SameOutcome

end Eval

/-! ## Evaluations on related stores -/

namespace Invariant

variable {α : Type} {I : Invariant} {R : Store → Store → Prop}

/-- The conditions under which evaluations that keep an invariant overlook how stores differ. -/
structure Overlooks (I : Invariant) (R : Store → Store → Prop) : Prop where
  definition {s s' : Store} {c : Cell} : I.admits (.cell c) → R s s' →
    s'.definition c = s.definition c
  define {s s' : Store} (c : Cell) (e : Expr) : R s s' → R (s.define c e) (s'.define c e)
  readDepth {s s' : Store} (c : Cell) : R s s' → s'.readDepth c = s.readDepth c
  enterRead {s s' : Store} (c : Cell) : R s s' → R (s.enterRead c) (s'.enterRead c)
  leaveRead {s s' : Store} (c : Cell) : R s s' → R (s.leaveRead c) (s'.leaveRead c)
  body {s s' : Store} {u : UserFunction} {es : List Expr} : I.admits (.call (.user u) es) →
    R s s' → s'.body u = s.body u
  callDepth {s s' : Store} (u : UserFunction) : R s s' → s'.callDepth u = s.callDepth u
  enterCall {s s' : Store} (u : UserFunction) (arguments : List Value) : R s s' →
    R (enterCall s u arguments) (enterCall s' u arguments)
  leaveCall {s s' t t' : Store} (u : UserFunction) : R s s' → R t t' →
    R (leaveCall s u t) (leaveCall s' u t')

/-- A computation has the same outcome on related stores. -/
def Respects (I : Invariant) (R : Store → Store → Prop) (m : Eval α) : Prop :=
  ∀ s s', I.holds s → R s s' → SameOutcome R (m.runOn s) (m.runOn s')

theorem Asking.respects (kept : I.Kept) (overlooks : I.Overlooks R) {eval : Evaluator}
    (evaluator : I.KeptBy eval) (respects : ∀ e, I.admits e → I.Respects R (eval e))
    {may : Expr → Prop} {P : α → Prop} {F : Evaluator → Eval α} (asking : Asking I may P F) :
    I.Respects R (F eval) := by
  induction asking with
  | result _ | failure _ => exact fun _ _ _ related => .ended related _
  | @definition _ c admitted _ =>
    intro s s' _ related
    rw [runOn_definition, runOn_definition, overlooks.definition admitted related]
    exact .ended related _
  | define _ _ _ => exact fun _ _ _ related => .ended (overlooks.define _ _ related) _
  | ask admitted _ => exact respects _ admitted
  | @read c admitted =>
    intro s s' before related
    rw [runOn_reading, runOn_reading, overlooks.readDepth c related]
    by_cases full : readLimit ≤ s.readDepth c
    · rw [if_pos full, if_pos full]
      exact .ended related _
    · have entered := overlooks.enterRead c related
      have inside := (kept.reading before admitted (Nat.lt_of_not_le full)).1
      rw [if_neg full, if_neg full, runOn_bind_ok (runOn_definition c _),
        runOn_bind_ok (runOn_definition c _), overlooks.definition admitted entered]
      exact (respects _ (kept.definition inside admitted) _ _ inside entered).map
        fun _ _ after => overlooks.leaveRead c after
  | @call u es arguments admitted =>
    intro s s' before related
    rw [runOn_calling, runOn_calling, overlooks.callDepth u related]
    by_cases full : callLimit ≤ s.callDepth u
    · rw [if_pos full, if_pos full]
      exact .ended related _
    · have entered := overlooks.enterCall u arguments related
      obtain ⟨inside, body, _⟩ := kept.calling arguments before admitted (Nat.lt_of_not_le full)
      rw [if_neg full, if_neg full, runOn_bind_ok (runOn_get _), runOn_bind_ok (runOn_get _),
        overlooks.body admitted entered]
      exact (respects _ body _ _ inside entered).map
        fun _ _ after => overlooks.leaveCall u related after
  | bind asking _ first second =>
    intro s s' before related
    refine (first s s' before related).bind fun a t t' ends between => ?_
    obtain ⟨after, _, good⟩ := asking.keeps kept evaluator s _ t before ends
    exact second a (good a rfl) t t' after between

variable (kept : I.Kept) (overlooks : I.Overlooks R) {e : Expr} (admitted : I.admits e)

include kept overlooks admitted

theorem Overlooks.eval (budget : Nat) : I.Respects R (e.eval budget) := by
  induction budget generalizing e with
  | zero => exact fun _ _ _ _ => .none
  | succ budget inductionHypothesis =>
    have asking : Asking I (fun _ => True) (fun _ => True) fun eval => e.resolve eval :=
      .resolve kept admitted (fun _ _ => True.intro) fun _ _ _ => True.intro
    exact asking.respects kept overlooks (kept.eval budget) fun _ => inductionHypothesis

theorem Overlooks.evaluate : I.Respects R e.evaluate := by
  intro s s' before related
  have respected (budget : Nat) := overlooks.eval kept admitted budget s s' before related
  cases ends : e.evaluate.runOn s with
  | none =>
    have never : e.evaluate.runOn s' = none := Expr.evaluate_eq_none_iff.2 fun budget =>
      (Expr.evaluate_eq_none_iff.1 ends budget ▸ respected budget).eq_none
    rw [never]
    exact .none
  | some o =>
    obtain ⟨r, t⟩ := o
    obtain ⟨budget, ends⟩ := Expr.evaluate_eq_some_iff.1 ends
    obtain ⟨t', ends', after⟩ := (ends ▸ respected budget).exists_eq_some
    rw [Expr.evaluate_eq_some_iff.2 ⟨budget, ends'⟩]
    exact .ended after r

end Invariant

/-! ## Stores with the same contents -/

/-- Whether cells and functions stand for the same in two stores, and the same reads and calls are
    under way. -/
structure Store.SameContents (s t : Store) : Prop where
  definition (c : Cell) : t.definition c = s.definition c
  body (u : UserFunction) : t.body u = s.body u
  counts : s.SameCounts t

namespace Store.SameContents

variable {s s' t t' u : Store}

theorem symm (same : s.SameContents t) : t.SameContents s where
  definition c := (same.definition c).symm
  body f := (same.body f).symm
  counts := ⟨fun c => (same.counts.1 c).symm, fun f => (same.counts.2 f).symm⟩

theorem trans (first : s.SameContents t) (second : t.SameContents u) : s.SameContents u where
  definition c := (second.definition c).trans (first.definition c)
  body f := (second.body f).trans (first.body f)
  counts := first.counts.trans second.counts

theorem afterRead (s : Store) (c : Cell) : s.SameContents ((s.enterRead c).leaveRead c) where
  definition _ := rfl
  body _ := rfl
  counts := ⟨readDepth_leaveRead_enterRead s c, fun _ => rfl⟩

theorem define (same : s.SameContents s') (c : Cell) (e : Expr) :
    (s.define c e).SameContents (s'.define c e) where
  definition d := by rw [definition_define, definition_define, same.definition]
  body := same.body
  counts := same.counts

theorem enterRead (same : s.SameContents s') (c : Cell) :
    (s.enterRead c).SameContents (s'.enterRead c) where
  definition := same.definition
  body := same.body
  counts.left d := by
    rw [readDepth_enterRead, readDepth_enterRead, same.counts.1, same.counts.1]
  counts.right := same.counts.2

theorem leaveRead (same : s.SameContents s') (c : Cell) :
    (s.leaveRead c).SameContents (s'.leaveRead c) where
  definition := same.definition
  body := same.body
  counts.left d := by
    rw [readDepth_leaveRead, readDepth_leaveRead, same.counts.1, same.counts.1]
  counts.right := same.counts.2

theorem enterCall (same : s.SameContents s') (f : UserFunction) (arguments : List Value) :
    (Eval.enterCall s f arguments).SameContents (Eval.enterCall s' f arguments) where
  definition c := by rw [definition_enterCall, definition_enterCall, same.definition]
  body g := by rw [body_enterCall, body_enterCall, same.body]
  counts.left c := by rw [readDepth_enterCall, readDepth_enterCall, same.counts.1]
  counts.right g := by
    rw [Eval.callDepth_enterCall, Eval.callDepth_enterCall, same.counts.2, same.counts.2]

theorem leaveCall (same : s.SameContents s') (after : t.SameContents t') (f : UserFunction) :
    (Eval.leaveCall s f t).SameContents (Eval.leaveCall s' f t') where
  definition c := by
    rw [definition_leaveCall, definition_leaveCall, same.definition, after.definition]
  body g := by rw [body_leaveCall, body_leaveCall, after.body]
  counts.left c := by rw [readDepth_leaveCall, readDepth_leaveCall, after.counts.1]
  counts.right g := by
    rw [Eval.callDepth_leaveCall, Eval.callDepth_leaveCall, after.counts.2, after.counts.2]

theorem overlooked : Invariant.trivial.Overlooks Store.SameContents where
  definition _ same := same.definition _
  define c e same := same.define c e
  readDepth c same := same.counts.1 c
  enterRead c same := same.enterRead c
  leaveRead c same := same.leaveRead c
  body _ same := same.body _
  callDepth f same := same.counts.2 f
  enterCall f arguments same := same.enterCall f arguments
  leaveCall f same after := same.leaveCall after f

end Store.SameContents

theorem Expr.evaluate_sameContents (e : Expr) {s s' : Store} (same : s.SameContents s') :
    SameOutcome Store.SameContents (e.evaluate.runOn s) (e.evaluate.runOn s') :=
  Store.SameContents.overlooked.evaluate Invariant.trivial_kept True.intro s s' True.intro same

end Abacus
