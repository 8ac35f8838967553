import Abacus.Proofs.Expr.Parts
import Abacus.Proofs.Expr.Signs

/-!
# Faithful expressions

Up to parentheses and to the name of void, an expression is what its rendered text
reads as exactly if it is faithful: it has no infinite literal and no glued sign.
-/

namespace Abacus.Expr

open Grammar (standard)

theorem Legible.weaken {leaf leaf' : Expr → Prop} {callable : Function → Nat → Prop} {e : Expr}
    (legible : Legible leaf callable e) (imp : ∀ x ∈ e.subexpressions, leaf x → leaf' x) :
    Legible leaf' callable e := by
  have self := imp e (mem_subexpressions_self e)
  induction legible with
  | literal good => exact .literal (self good)
  | cell good => exact .cell (self good)
  | binary operates chained _ _ leftHypothesis rightHypothesis =>
    have left := fun x member => imp x (List.mem_cons_of_mem _ (List.mem_append_left _ member))
    have right := fun x member => imp x (List.mem_cons_of_mem _ (List.mem_append_right _ member))
    exact .binary operates chained (leftHypothesis left (left _ (mem_subexpressions_self _)))
      (rightHypothesis right (right _ (mem_subexpressions_self _)))
  | unary modifies chained _ inductionHypothesis =>
    have inner := fun x member => imp x (List.mem_cons_of_mem _ member)
    exact .unary modifies chained (inductionHypothesis inner (inner _ (mem_subexpressions_self _)))
  | call good _ inductionHypothesis =>
    refine .call good fun e among => ?_
    have inner := fun x member => imp x (List.mem_cons_of_mem _
      (mem_subexpressionsAll.2 ⟨e, among, member⟩))
    exact inductionHypothesis e among inner (inner _ (mem_subexpressions_self _))
  | parens _ inductionHypothesis =>
    have inner := fun x member => imp x (List.mem_cons_of_mem _ member)
    exact .parens (inductionHypothesis inner (inner _ (mem_subexpressions_self _)))

def isInfinite : Expr → Bool
  | .literal (some a) => a.isInfinite
  | _ => false

/-- Whether an expression has neither an infinite literal nor a glued sign in it. -/
def Faithful (e : Expr) : Prop :=
  ∀ x ∈ e.subexpressions, x.isInfinite = false ∧ x.isGlued = false

mutual

/-- The expression without its parentheses, and with the name of void for void. -/
def stripped (void : Cell) : Expr → Expr
  | .literal none => .cell void
  | .literal (some a) => .literal (some a)
  | .cell c => .cell c
  | .binary o l r => .binary o (l.stripped void) (r.stripped void)
  | .unary m e => .unary m (e.stripped void)
  | .call f arguments => .call f (strippedAll void arguments)
  | .parens inner => inner.stripped void
  | .branches a b => .branches (a.stripped void) (b.stripped void)

def strippedAll (void : Cell) : List Expr → List Expr
  | [] => []
  | e :: rest => e.stripped void :: strippedAll void rest

end

theorem strippedAll_eq_map (void : Cell) (es : List Expr) :
    strippedAll void es = es.map (stripped void) := by
  induction es with
  | nil => rfl
  | cons e rest inductionHypothesis => rw [strippedAll, inductionHypothesis, List.map_cons]

section

variable {m : Modifier} {e l r : Expr}

theorem faithful_literal {a : Number} :
    (Expr.literal (some a)).Faithful ↔ a.isInfinite = false := by
  simp [Faithful, subexpressions, isInfinite, isGlued]

theorem faithful_void : (Expr.literal none).Faithful := by
  simp [Faithful, subexpressions, isInfinite, isGlued]

theorem faithful_cell (c : Cell) : (Expr.cell c).Faithful := by
  simp [Faithful, subexpressions, isInfinite, isGlued]

theorem faithful_binary {o : Operator} :
    (Expr.binary o l r).Faithful ↔ l.Faithful ∧ r.Faithful := by
  simp [Faithful, subexpressions, isInfinite, isGlued, or_imp, forall_and]
  grind

theorem faithful_unary :
    (Expr.unary m e).Faithful ↔ (Expr.unary m e).isGlued = false ∧ e.Faithful := by
  simp [Faithful, subexpressions, isInfinite]

theorem faithful_call {f : Function} {arguments : List Expr} :
    (Expr.call f arguments).Faithful ↔ ∀ e ∈ arguments, e.Faithful := by
  simp only [Faithful, subexpressions, List.mem_cons, mem_subexpressionsAll, isInfinite, isGlued]
  grind

theorem faithful_parens : (Expr.parens e).Faithful ↔ e.Faithful := by
  simp [Faithful, subexpressions, isInfinite, isGlued]

end

/-! ## What is read of a rendered text -/

theorem stripped_enclosed (void : Cell) (needed : Bool) (e : Expr) :
    (enclosed needed e).unglued.stripped void = e.unglued.stripped void := by
  cases needed <;> rfl

theorem Chained.signed_of_unary {row : Nat} {m : Modifier} {e x : Expr} (chained : Chained row x)
    (unary : x = .unary m e) : Signed x := by
  induction chained with
  | signed signed => exact signed
  | tighter _ _ inductionHypothesis => exact inductionHypothesis unary
  | left _ _ _ _ _ _ _ | right _ _ _ _ _ _ _ => cases unary

theorem signed_of_sign {m : Modifier} {e : Expr} (modifies : standard.Modifies 8 m)
    (chained : Chained 0 (.unary m e)) : Signed e := by
  cases chained.signed_of_unary rfl with
  | sign _ signed => exact signed
  | step modifies' _ _ =>
    have row := modifies.row?.symm.trans modifies'.row?
    cases row
  | postfixed postfixed =>
    cases postfixed with
    | operand operand => cases operand
    | after _ modifies' _ =>
      have row := modifies.row?.symm.trans modifies'.row?
      cases row

theorem isGlued_unglued_explicit {row : Nat} {m : Modifier} {e : Expr}
    (modifies : standard.Modifies row m) (chained : Chained 0 (.unary m e))
    (names : String → Cell) :
    (Expr.unary m (e.explicit names (.operandOf (some row) m.side)).unglued).isGlued =
      (Expr.unary m e).isGlued := by
  cases side : m.side with
  | after =>
    rw [isGlued_of_glues (glues_of_after side), isGlued_of_glues (glues_of_after side)]
  | before =>
    rcases (Grammar.row_of_modifies modifies).1 side with rfl | rfl
    · have signed := signed_of_sign modifies chained
      rw [isGlued, isGlued, (signed.explicit _).leftModifier?_unglued, signed.leftModifier?_explicit]
    · rw [isGlued_of_glues (glues_of_step modifies), isGlued_of_glues (glues_of_step modifies)]

theorem symbol_ne_of_glues {m m' : Modifier} (glues : glues m m') : m ≠ m' := by
  rintro rfl
  simp [Expr.glues] at glues
  rcases glues.2 with ⟨plus, step⟩ | ⟨minus, step⟩
  · exact absurd (plus.symm.trans step) (by decide)
  · exact absurd (minus.symm.trans step) (by decide)

/-- Up to parentheses and void, what is printed reads as the expression itself exactly if that is
    faithful. -/
theorem stripped_unglued_explicit {leaf : Expr → Prop} {callable : Function → Nat → Prop} {e : Expr}
    (legible : Legible leaf callable e) (names : String → Cell) (place : Place) :
    (e.explicit names place).unglued.stripped (names "void") = e.stripped (names "void") ↔
      e.Faithful := by
  induction legible generalizing place with
  | @literal v _ =>
    rw [explicit, stripped_enclosed]
    cases v with
    | none => exact iff_of_true rfl faithful_void
    | some a =>
      rw [settled, faithful_literal]
      cases a.isInfinite <;> simp [unglued, stripped]
  | cell _ => exact iff_of_true rfl (faithful_cell _)
  | binary _ _ _ _ leftHypothesis rightHypothesis =>
    rw [explicit, stripped_enclosed, faithful_binary, unglued, stripped, stripped, Expr.binary.injEq,
      leftHypothesis, rightHypothesis]
    exact and_iff_right rfl
  | @unary row m e modifies chained _ inductionHypothesis =>
    have glued := isGlued_unglued_explicit modifies chained names
    rw [explicit, stripped_enclosed, faithful_unary, unglued, modifies.row?, ← glued, stripped]
    cases apart : (Expr.unary m (e.explicit names (.operandOf (some row) m.side)).unglued).isGlued with
    | false =>
      rw [resigned_of_not_glued apart, stripped, Expr.unary.injEq, inductionHypothesis]
      simp
    | true =>
      obtain ⟨o, m', y, r, _, glues, swapped⟩ := resigned_of_glued apart
      rw [swapped, stripped, Expr.unary.injEq]
      refine iff_of_false (fun same => symbol_ne_of_glues glues same.1.symm) fun faithful => ?_
      cases faithful.1
  | @call f arguments _ _ inductionHypothesis =>
    rw [explicit, unglued, stripped, stripped, Expr.call.injEq, explicitAll_eq_map,
      ungluedAll_eq_map, strippedAll_eq_map, strippedAll_eq_map, faithful_call, List.map_map,
      List.map_map, List.map_inj_left]
    refine (and_iff_right rfl).trans (forall₂_congr fun e member => ?_)
    exact inductionHypothesis e member .alone
  | parens _ inductionHypothesis =>
    rw [explicit, unglued, stripped, stripped, faithful_parens]
    exact inductionHypothesis .alone

end Abacus.Expr
