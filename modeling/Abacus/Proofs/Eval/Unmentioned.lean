import Abacus.Proofs.Eval.Overlooked

/-!
# Functions that nothing mentions

An evaluation that can reach no call of a function does not depend on what this function does.
Nor does any evaluation change what a function does: a body is only ever given by a definition.
-/

namespace Abacus

open Eval

/-! ## Bodies stay -/

namespace Store

def SameBodies (s t : Store) : Prop := ∀ u, t.body u = s.body u

def keepingBodies : Invariant where
  holds _ := True
  admits _ := True
  relates := SameBodies

theorem keepingBodies_kept : keepingBodies.Kept where
  refl _ _ := rfl
  trans first second u := (second u).trans (first u)
  literal _ := True.intro
  branches := ⟨fun _ => ⟨True.intro, True.intro⟩, fun _ => True.intro⟩
  parens _ := True.intro
  binary _ := ⟨True.intro, True.intro⟩
  unary _ := True.intro
  arguments _ _ _ := True.intro
  definition _ _ := True.intro
  define _ _ _ _ := ⟨True.intro, fun _ => rfl⟩
  reading _ _ _ := ⟨True.intro, fun _ _ same => ⟨True.intro, same⟩⟩
  calling _ _ _ _ := ⟨True.intro, True.intro, fun _ _ same => ⟨True.intro, fun w =>
    (body_leaveCall w).trans ((same w).trans (body_enterCall w))⟩⟩

end Store

theorem Expr.sameBodies_of_eval {budget : Nat} {e : Expr} {s t : Store}
    {r : Except EvalError Value} (ends : (e.eval budget).runOn s = some (r, t)) :
    s.SameBodies t :=
  (Store.keepingBodies_kept.eval budget e True.intro s r t True.intro ends).2.1

/-! ## A body that nothing reaches -/

def UserFunction.others (u : UserFunction) : Vocabulary where
  function w := w.id ≠ u.id

namespace Store

variable {u : UserFunction} {body : Expr}

theorem defineAll_withBody (s : Store) (pairs : List (Cell × Expr)) :
    (s.withBody u body).defineAll pairs = (s.defineAll pairs).withBody u body := by
  unfold defineAll
  induction pairs generalizing s with
  | nil => rfl
  | cons pair rest inductionHypothesis => exact inductionHypothesis (s.define pair.1 pair.2)

theorem enterCall_withBody (s : Store) (w : UserFunction) (arguments : List Value) :
    Eval.enterCall (s.withBody u body) w arguments =
      (Eval.enterCall s w arguments).withBody u body :=
  defineAll_withBody (s.enterCall w) _

theorem leaveCall_withBody (s t : Store) (w : UserFunction) :
    Eval.leaveCall (s.withBody u body) w (t.withBody u body) =
      (Eval.leaveCall s w t).withBody u body :=
  congrArg (Store.leaveCall · w) (defineAll_withBody t _)

end Store

namespace Eval

variable {α β : Type} {u : UserFunction} {body : Expr}

/-- The outcome with another body of a function in the store that is left behind. -/
def withBodyAfter (u : UserFunction) (body : Expr) :
    Except EvalError α × Store → Except EvalError α × Store
  | (result, t) => (result, t.withBody u body)

/-- A computation does the same whatever a function does, if nothing that is stored calls it. -/
def Ignores (u : UserFunction) (body : Expr) (m : Eval α) : Prop :=
  ∀ s, s.Uses u.others → m.runOn (s.withBody u body) = (m.runOn s).map (withBodyAfter u body)

end Eval

open Eval (Ignores withBodyAfter)

theorem UserFunction.overlooked (u : UserFunction) (body : Expr) :
    u.others.invariant.Overlooks fun s s' => s' = s.withBody u body where
  definition _ related := related ▸ rfl
  define _ _ related := related ▸ rfl
  readDepth _ related := related ▸ rfl
  enterRead _ related := related ▸ rfl
  leaveRead _ related := related ▸ rfl
  body {s _ w _} admitted related := by
    have other : u.id ≠ w.id := Ne.symm (admitted.1 w rfl)
    rw [related, Store.body_withBody, if_neg other]
  callDepth _ related := related ▸ rfl
  enterCall w arguments related := related ▸ Store.enterCall_withBody _ w arguments
  leaveCall w related after := related ▸ after ▸ Store.leaveCall_withBody _ _ w

/-- An expression that mentions only other functions, in a store that mentions only others, is
    evaluated as before once the body of a function changes. -/
theorem Expr.eval_ignores {u : UserFunction} (body : Expr) (budget : Nat) {e : Expr}
    (uses : e.Uses u.others) : Ignores u body (e.eval budget) := by
  intro s storeUses
  have same := (u.overlooked body).eval u.others.kept uses budget s _ storeUses rfl
  cases ends : (e.eval budget).runOn s with
  | none => exact (ends ▸ same).eq_none
  | some o =>
    obtain ⟨r, t⟩ := o
    obtain ⟨_, ends', rfl⟩ := (ends ▸ same).exists_eq_some
    exact ends'

end Abacus
