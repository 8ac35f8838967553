import Abacus.Eval.Step

/-!
# Outcomes of evaluations

What a computation does on a store: it ends with a result or an error, or it runs
out of budget.  A sequence, a counted read and a counted call have one equation
each.
-/

namespace Abacus

namespace Eval

variable {α β : Type}

/-! ## What a computation does on a store -/

@[simp] theorem runOn_pure (a : α) (s : Store) : (pure a : Eval α).runOn s = some (.ok a, s) := rfl

@[simp] theorem runOn_throw (cause : EvalError) (s : Store) :
    (throw cause : Eval α).runOn s = some (.error cause, s) := rfl

@[simp] theorem runOn_get (s : Store) : (get : Eval Store).runOn s = some (.ok s, s) := rfl

@[simp] theorem runOn_modify (change : Store → Store) (s : Store) :
    (modify change : Eval Unit).runOn s = some (.ok (), change s) := rfl

theorem runOn_bind (m : Eval α) (f : α → Eval β) (s : Store) :
    (m >>= f).runOn s = match m.runOn s with
      | none => none
      | some (.ok a, t) => (f a).runOn t
      | some (.error cause, t) => some (.error cause, t) := by
  change (m s).bind _ = _
  unfold runOn
  rcases m s with _ | ⟨_ | _, _⟩ <;> rfl

theorem runOn_bind_ok {m : Eval α} {s t : Store} {a : α} (first : m.runOn s = some (.ok a, t))
    (f : α → Eval β) : (m >>= f).runOn s = (f a).runOn t := by
  rw [runOn_bind, first]

theorem runOn_bind_error {m : Eval α} {s t : Store} {cause : EvalError}
    (first : m.runOn s = some (.error cause, t)) (f : α → Eval β) :
    (m >>= f).runOn s = some (.error cause, t) := by
  rw [runOn_bind, first]

theorem runOn_bind_eq_some {m : Eval α} {f : α → Eval β} {s t : Store} {r : Except EvalError β} :
    (m >>= f).runOn s = some (r, t) ↔
      (∃ a u, m.runOn s = some (.ok a, u) ∧ (f a).runOn u = some (r, t)) ∨
      ∃ cause, m.runOn s = some (.error cause, t) ∧ r = .error cause := by
  rw [runOn_bind]
  rcases m.runOn s with _ | ⟨_ | a, u⟩
  · simp
  · constructor
    · intro ends
      cases ends
      exact .inr ⟨_, rfl, rfl⟩
    · rintro (⟨a, u, impossible, _⟩ | ⟨cause, failed, rfl⟩)
      · cases impossible
      · cases failed
        rfl
  · simp [and_assoc]

theorem runOn_bind_eq_none {m : Eval α} {f : α → Eval β} {s : Store} :
    (m >>= f).runOn s = none ↔
      m.runOn s = none ∨ ∃ a t, m.runOn s = some (.ok a, t) ∧ (f a).runOn t = none := by
  rw [runOn_bind]
  rcases m.runOn s with _ | ⟨_ | a, u⟩ <;> simp [and_assoc]

@[simp] theorem runOn_thenAlways (m : Eval α) (change : Store → Store) (s : Store) :
    (thenAlways m change).runOn s = (m.runOn s).map fun (result, t) => (result, change t) := rfl

@[simp] theorem runOn_definition (c : Cell) (s : Store) :
    (definition c).runOn s = some (.ok (s.definition c), s) := rfl

theorem runOn_ofExcept (r : Except EvalError α) (s : Store) :
    (ofExcept r).runOn s = some (r, s) := by
  cases r <;> rfl

theorem runOn_reading (c : Cell) (m : Eval α) (s : Store) :
    (reading c m).runOn s =
      if readLimit ≤ s.readDepth c then some (.error (.tooDeep c.name), s)
      else (m.runOn (s.enterRead c)).map fun (result, t) => (result, t.leaveRead c) := by
  unfold reading
  rw [runOn_bind_ok (runOn_get s)]
  by_cases full : readLimit ≤ s.readDepth c
  · rw [if_pos full, if_pos full]
    rfl
  · rw [if_neg full, if_neg full, runOn_bind_ok (runOn_modify _ s), runOn_thenAlways]

/-- The store in which the body of a function is evaluated. -/
def enterCall (s : Store) (u : UserFunction) (arguments : List Value) : Store :=
  (s.enterCall u).defineAll (u.parameters.zip (arguments.map Expr.literal))

/-- The store after the body, with what the parameters stood for `before` the call. -/
def leaveCall (before : Store) (u : UserFunction) (t : Store) : Store :=
  (t.defineAll (u.parameters.map fun c => (c, before.definition c))).leaveCall u

theorem runOn_calling (u : UserFunction) (arguments : List Value) (m : Eval α) (s : Store) :
    (calling u arguments m).runOn s =
      if callLimit ≤ s.callDepth u then some (.error (.tooDeep u.name), s)
      else (m.runOn (enterCall s u arguments)).map
        fun (result, t) => (result, leaveCall s u t) := by
  unfold calling
  rw [runOn_bind_ok (runOn_get s)]
  by_cases full : callLimit ≤ s.callDepth u
  · rw [if_pos full, if_pos full]
    rfl
  · rw [if_neg full, if_neg full, runOn_bind_ok (runOn_modify _ s), runOn_thenAlways]
    rfl

end Eval

namespace Function

open Eval

variable {arguments : List Value}

theorem call_builtin {eval : Evaluator} {b : Builtin}
    (count : arguments.length = (Function.builtin b).arity) :
    (Function.builtin b).call eval arguments = ofExcept (b.apply arguments) := by
  simp [call, count]

theorem call_user {eval : Evaluator} {u : UserFunction}
    (count : arguments.length = (Function.user u).arity) :
    (Function.user u).call eval arguments = calling u arguments (do eval ((← get).body u)) := by
  simp [call, count]

theorem call_of_ne {eval : Evaluator} {f : Function} (count : arguments.length ≠ f.arity) :
    f.call eval arguments = throw (.outsideDomain
      s!"{f.name} expects {f.arity} argument(s), got {arguments.length}") := by
  unfold call
  rw [if_pos count]
  rfl

end Function

/-! ## What stores hold -/

namespace Store

/-- Whether all that cells and functions stand for has a property. -/
def All (P : Expr → Prop) (s : Store) : Prop := (∀ c, P (s.definition c)) ∧ ∀ u, P (s.body u)

namespace All

variable {P : Expr → Prop} {s t : Store} (all : s.All P)

include all

theorem define {c : Cell} {e : Expr} (added : P e) : (s.define c e).All P := by
  refine ⟨fun d => ?_, all.2⟩
  rw [definition_define]
  split
  · exact added
  · exact all.1 d

theorem withBody {u : UserFunction} {e : Expr} (added : P e) : (s.withBody u e).All P := by
  refine ⟨all.1, fun w => ?_⟩
  rw [body_withBody]
  split
  · exact added
  · exact all.2 w

theorem defineAll {pairs : List (Cell × Expr)} (added : ∀ p ∈ pairs, P p.2) :
    (s.defineAll pairs).All P := by
  unfold Store.defineAll
  induction pairs generalizing s with
  | nil => exact all
  | cons pair rest inductionHypothesis =>
    rw [List.forall_mem_cons] at added
    exact inductionHypothesis (all.define added.1) added.2

theorem enterCall (literal : ∀ v, P (.literal v)) (u : UserFunction) (arguments : List Value) :
    (Eval.enterCall s u arguments).All P := by
  have counted : (s.enterCall u).All P := all
  refine counted.defineAll fun p member => ?_
  obtain ⟨v, _, equal⟩ := List.mem_map.1 (List.of_mem_zip member).2
  rw [← equal]
  exact literal v

theorem leaveCall (after : t.All P) (u : UserFunction) : (Eval.leaveCall s u t).All P := by
  have restored : (t.defineAll (u.parameters.map fun c => (c, s.definition c))).All P := by
    refine after.defineAll fun p member => ?_
    obtain ⟨c, _, rfl⟩ := List.mem_map.1 member
    exact all.1 c
  exact restored

end All

end Store

end Abacus
