import Abacus.Proofs.Eval.Vocabulary

/-!
# What evaluations leave alone

An evaluation writes to the variables that its expressions mention and to the parameters of the
functions that they call.  Where a vocabulary has none of some numbers among these, whatever keeps
to it leaves the cells of these numbers as they were.
-/

namespace Abacus

open Eval

namespace Store

def SameAt (spared : Nat → Prop) (s t : Store) : Prop :=
  ∀ id, spared id → t.definitions.get? id = s.definitions.get? id

variable {spared : Nat → Prop} {s t u : Store}

theorem SameAt.refl (s : Store) : s.SameAt spared s := fun _ _ => rfl

theorem SameAt.trans (first : s.SameAt spared t) (second : t.SameAt spared u) : s.SameAt spared u :=
  fun id isSpared => (second id isSpared).trans (first id isSpared)

theorem SameAt.definition (same : s.SameAt spared t) {c : Cell} (isSpared : spared c.id) :
    t.definition c = s.definition c := by
  rw [Store.definition, same c.id isSpared, Store.definition]

theorem SameAt.define (s : Store) {c : Cell} (other : ¬ spared c.id) (e : Expr) :
    s.SameAt spared (s.define c e) := by
  intro id isSpared
  exact Table.get?_insert_of_ne _ _ fun equal => other (equal ▸ isSpared)

theorem SameAt.defineAll (s : Store) {pairs : List (Cell × Expr)}
    (others : ∀ p ∈ pairs, ¬ spared p.1.id) : s.SameAt spared (s.defineAll pairs) := by
  unfold Store.defineAll
  induction pairs generalizing s with
  | nil => exact .refl s
  | cons p rest inductionHypothesis =>
    rw [List.forall_mem_cons] at others
    exact (SameAt.define s others.1 p.2).trans (inductionHypothesis _ others.2)

end Store

namespace Vocabulary

/-- Whether no variable and no parameter of a vocabulary has one of some numbers. -/
structure Spares (V : Vocabulary) (spared : Nat → Prop) : Prop where
  cell : ∀ c, V.cell c → c.kind = .variable → ¬ spared c.id
  function : ∀ u, V.function u → ∀ c ∈ u.parameters, ¬ spared c.id

/-- Expressions keep to a vocabulary, and the cells of some numbers stay the same. -/
def frame (V : Vocabulary) (spared : Nat → Prop) : Invariant where
  holds := Store.Uses V
  admits := Expr.Uses V
  relates := Store.SameAt spared

variable {V : Vocabulary} {spared : Nat → Prop}

theorem Spares.kept (spares : V.Spares spared) : (V.frame spared).Kept where
  refl := Store.SameAt.refl
  trans := Store.SameAt.trans
  literal := V.kept.literal
  branches := V.kept.branches
  parens := V.kept.parens
  binary := V.kept.binary
  unary := V.kept.unary
  arguments := V.kept.arguments
  definition := V.kept.definition
  define before admitted isVariable definition :=
    ⟨(V.kept.define before admitted isVariable definition).1,
      .define _ (spares.cell _ admitted isVariable) _⟩
  reading before _ _ := ⟨before, fun _ after related => ⟨after, related⟩⟩
  calling {s u es} arguments before admitted room := by
    obtain ⟨inside, body, _⟩ := V.kept.calling arguments before admitted room
    have others : ∀ c ∈ u.parameters, ¬ spared c.id := spares.function u (admitted.1 u rfl)
    refine ⟨inside, body, fun t after related => ⟨before.all.leaveCall after u, ?_⟩⟩
    -- Parameters are bound for the body and restored behind it; none has a spared number.
    have entered : s.SameAt spared (enterCall s u arguments) :=
      Store.SameAt.defineAll (s.enterCall u) fun p member =>
        others p.1 (List.of_mem_zip member).1
    have restored : t.SameAt spared (leaveCall s u t) :=
      Store.SameAt.defineAll t fun p member => by
        obtain ⟨c, among, rfl⟩ := List.mem_map.1 member
        exact others c among
    exact (entered.trans related).trans restored

theorem Spares.eval (spares : V.Spares spared) {budget : Nat} {e : Expr} (uses : e.Uses V)
    {s t : Store} (before : s.Uses V) {result : Except EvalError Value}
    (ends : (e.eval budget).runOn s = some (result, t)) : t.Uses V ∧ s.SameAt spared t := by
  obtain ⟨after, same, _⟩ := spares.kept.eval budget e uses s result t before ends
  exact ⟨after, same⟩

end Vocabulary

end Abacus
