import Abacus.Proofs.Eval.Simulation
import Abacus.Proofs.Table

/-!
# Parentheses

Parentheses make no difference to evaluations, except around a pair of branches that has been made
already, which they would hide from a condition.  No evaluation puts them there.
-/

namespace Abacus

open Eval

/-! ## Exposed branches -/

namespace Expr

/-- Whether an expression is a pair of branches in parentheses. -/
def hidesBranches : Expr → Bool
  | .parens inner => inner.isPair
  | _ => false

/-- Whether no pair of branches inside of an expression is in parentheses. -/
def Exposed (e : Expr) : Prop := ∀ x ∈ e.subexpressions, x.hidesBranches = false

instance (e : Expr) : Decidable e.Exposed :=
  inferInstanceAs (Decidable (∀ x ∈ e.subexpressions, x.hidesBranches = false))

variable {e l r : Expr}

theorem exposed_literal (v : Value) : (Expr.literal v).Exposed := by
  simp [Exposed, subexpressions, hidesBranches]

theorem exposed_cell (c : Cell) : (Expr.cell c).Exposed := by
  simp [Exposed, subexpressions, hidesBranches]

theorem exposed_binary {o : Operator} : (Expr.binary o l r).Exposed ↔ l.Exposed ∧ r.Exposed := by
  simp [Exposed, subexpressions, hidesBranches, or_imp, forall_and]

theorem exposed_branches : (Expr.branches l r).Exposed ↔ l.Exposed ∧ r.Exposed := by
  simp [Exposed, subexpressions, hidesBranches, or_imp, forall_and]

theorem exposed_unary {m : Modifier} : (Expr.unary m e).Exposed ↔ e.Exposed := by
  simp [Exposed, subexpressions, hidesBranches]

theorem exposed_parens : (Expr.parens e).Exposed ↔ e.isPair = false ∧ e.Exposed := by
  simp [Exposed, subexpressions, hidesBranches]

theorem exposed_call {f : Function} {es : List Expr} :
    (Expr.call f es).Exposed ↔ ∀ e ∈ es, e.Exposed := by
  simp only [Exposed, subexpressions, List.forall_mem_cons, mem_subexpressionsAll]
  constructor
  · exact fun exposed e member x inside => exposed.2 x ⟨e, member, inside⟩
  · exact fun exposed => ⟨rfl, fun x ⟨e, member, inside⟩ => exposed e member x inside⟩

/-! ## Without parentheses -/

mutual

theorem Exposed.simplifies {lending : Lending} : ∀ {e : Expr}, e.Exposed →
    Simplifies .unwrapping lending e e.withoutParens
  | .literal v, _ => .literal v
  | .cell _, _ => .cell fun lent => nomatch lent
  | .binary _ _ _, exposed =>
    .binary (fun _ _ _ lent => lent) (fun _ => (exposed_binary.1 exposed).2.simplifies)
      (exposed_binary.1 exposed).1.simplifies (exposed_binary.1 exposed).2.simplifies
  | .unary _ _, exposed => .unary (fun _ _ _ lent => lent) (exposed_unary.1 exposed).simplifies
  | .call _ es, exposed =>
    .call (fun _ _ => True.intro) (by rw [withoutParensAll_eq_map, List.length_map])
      (simplifiesAll es (exposed_call.1 exposed))
  | .parens _, exposed =>
    .unwrapped rfl (exposed_parens.1 exposed).1 (exposed_parens.1 exposed).2.simplifies
  | .branches _ _, exposed =>
    .branches (exposed_branches.1 exposed).1.simplifies (exposed_branches.1 exposed).2.simplifies

theorem simplifiesAll {lending : Lending} : ∀ es : List Expr, (∀ e ∈ es, e.Exposed) →
    ∀ i (left : i < es.length) (right : i < (withoutParensAll es).length),
      Simplifies .unwrapping lending es[i] (withoutParensAll es)[i]
  | [], _, _, left, _ => nomatch left
  | _ :: _, exposed, 0, _, _ => (exposed _ List.mem_cons_self).simplifies
  | _ :: rest, exposed, i + 1, left, right =>
    simplifiesAll rest (fun e member => exposed e (List.mem_cons_of_mem _ member)) i
      (Nat.lt_of_succ_lt_succ left) (Nat.lt_of_succ_lt_succ right)

end

/-- What is simplified without substituting anything is what is left without parentheses. -/
theorem Simplifies.eq_withoutParens {lending : Lending} {e e' : Expr}
    (same : Simplifies .unwrapping lending e e') : e' = e.withoutParens := by
  induction same with
  | literal _ | cell _ => rfl
  | replaced lent _ _ => cases lent
  | binary _ _ _ _ _ left right => rw [withoutParens, ← left, ← right]
  | unary _ _ inner => rw [withoutParens, ← inner]
  | @call _ f es es' _ length _ arguments =>
    have equal : es' = withoutParensAll es := by
      rw [withoutParensAll_eq_map]
      refine List.ext_getElem (by rw [List.length_map, length]) fun i right left => ?_
      rw [List.getElem_map]
      exact arguments i _ _
    rw [withoutParens, equal]
  | branches _ _ whenTrue whenFalse => rw [withoutParens, ← whenTrue, ← whenFalse]
  | parens kept _ _ => exact absurd rfl kept
  | unwrapped _ _ _ inner => exact inner

end Expr

/-! ## Stores -/

namespace Store

def withoutParens (s : Store) : Store :=
  { s with
    definitions := s.definitions.mapValues Expr.withoutParens
    bodies := s.bodies.mapValues Expr.withoutParens }

theorem definition_withoutParens (s : Store) (c : Cell) :
    s.withoutParens.definition c = (s.definition c).withoutParens := by
  show ((s.definitions.mapValues Expr.withoutParens).get? c.id).getD .void = _
  rw [Table.get?_mapValues, definition]
  cases s.definitions.get? c.id <;> rfl

theorem body_withoutParens (s : Store) (u : UserFunction) :
    s.withoutParens.body u = (s.body u).withoutParens := by
  show ((s.bodies.mapValues Expr.withoutParens).get? u.id).getD .void = _
  rw [Table.get?_mapValues, body]
  cases s.bodies.get? u.id <;> rfl

/-- Whether no pair of branches that cells and functions stand for is in parentheses. -/
def Exposed (s : Store) : Prop := s.All Expr.Exposed

/-- Whether a store says what another one says without parentheses. -/
structure Unwraps (s s' : Store) : Prop where
  definition (c : Cell) : s'.definition c = (s.definition c).withoutParens
  body (u : UserFunction) : s'.body u = (s.body u).withoutParens
  readDepth (c : Cell) : s'.readDepth c = s.readDepth c
  callDepth (u : UserFunction) : s'.callDepth u = s.callDepth u

variable {s t t' : Store} {loan : Loan}

theorem Exposed.simplifies (exposed : s.Exposed) :
    Simplifies .unwrapping loan s s.withoutParens where
  definition c _ := by
    rw [definition_withoutParens]
    exact (exposed.1 c).simplifies
  original _ lent := nomatch lent
  simplified _ lent := nomatch lent
  body u _ := by
    rw [body_withoutParens]
    exact (exposed.2 u).simplifies
  readDepth _ := rfl
  callDepth _ := rfl

theorem Simplifies.unwraps (same : Simplifies .unwrapping loan t t') : t.Unwraps t' where
  definition c := (same.definition c id).eq_withoutParens
  body u := (same.body u True.intro).eq_withoutParens
  readDepth := same.readDepth
  callDepth := same.callDepth

end Store

def exposure : Invariant where
  holds := Store.Exposed
  admits := Expr.Exposed
  relates _ _ := True

theorem exposure_kept : exposure.Kept where
  refl _ := True.intro
  trans _ _ := True.intro
  literal := Expr.exposed_literal
  branches := Expr.exposed_branches
  parens exposed := (Expr.exposed_parens.1 exposed).2
  binary := Expr.exposed_binary.1
  unary := Expr.exposed_unary.1
  arguments := Expr.exposed_call.1
  definition before _ := before.1 _
  define before _ _ exposed := ⟨Store.All.define before exposed, True.intro⟩
  reading before _ _ := ⟨before, fun _ after _ => ⟨after, True.intro⟩⟩
  calling {s u es} arguments before _ _ := by
    have entered := Store.All.enterCall before Expr.exposed_literal u arguments
    exact ⟨entered, entered.2 u, fun t after _ => ⟨Store.All.leaveCall before after u, True.intro⟩⟩

/-! ## Evaluations -/

namespace Eval

theorem Agree.mono {α α' : Type} {R R' : α → α' → Prop} {S S' : Store → Store → Prop}
    {x : Option (Except EvalError α × Store)} {x' : Option (Except EvalError α' × Store)}
    (agree : Agree R S x x') (results : ∀ a a', R a a' → R' a a')
    (stores : ∀ t t', S t t' → S' t t') : Agree R' S' x x' := by
  cases agree with
  | value related after => exact .value (results _ _ related) (stores _ _ after)
  | failure alike after => exact .failure alike (stores _ _ after)
  | exhausted => exact .exhausted

theorem Simulates.agree {loan : Loan} {α α' : Type} {R : α → α' → Prop} {m : Eval α} {m' : Eval α'}
    (simulates : Simulates .unwrapping loan R m m') {s : Store} (exposed : s.Exposed) :
    Agree R Store.Unwraps (m.runOn s) (m'.runOn s.withoutParens) := by
  rcases simulates s _ exposed.simplifies with ⟨lenient, _⟩ | agree
  · exact absurd rfl lenient
  · exact agree.mono (fun _ _ => id) fun _ _ same => same.unwraps

end Eval

end Abacus
