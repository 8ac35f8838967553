import Abacus.Number.Basic
import Mathlib

/-!
# The order of floating-point numbers

Floating-point numbers without `NaN` have ranks in a linear order, and comparing them is comparing
their ranks.  Only zeros of different signs share a rank.
-/

namespace Abacus.Binary64

open Number (compareFloat?)
open Float.Model (UnpackedFloat)
open Float.Model.UnpackedFloat (Sign)

/-- The place of a number in the order: by sign and infinity, then by exponent, then by mantissa.
    `NaN` has none. -/
def rank? : UnpackedFloat → Option (ℤ ×ₗ ℤ ×ₗ ℤ)
  | .notANumber => none
  | .infinity .negative => some (toLex (-2, toLex (0, 0)))
  | .finite .negative m e _ => some (toLex (-1, toLex (-e, -m)))
  | .zero _ => some (toLex (0, toLex (0, 0)))
  | .finite .positive m e _ => some (toLex (1, toLex (e, m)))
  | .infinity .positive => some (toLex (2, toLex (0, 0)))

theorem compare_toLex {α : Type} [Ord α] (a b : ℤ) (x y : α) :
    compare (toLex (a, x)) (toLex (b, y)) = (compare a b).then (compare x y) := by
  rw [Prod.Lex.compare_def]
  rfl

theorem compare_neg (a b : ℤ) : compare (-a) (-b) = (compare a b).swap := by
  rcases lt_trichotomy a b with less | rfl | greater
  · rw [compare_lt_iff_lt.2 less, compare_gt_iff_gt.2 (Int.neg_lt_neg less)]
    rfl
  · rw [compare_eq_iff_eq.2 rfl, compare_eq_iff_eq.2 rfl]
    rfl
  · rw [compare_gt_iff_gt.2 greater, compare_lt_iff_lt.2 (Int.neg_lt_neg greater)]
    rfl

theorem compare_natCast (m n : ℕ) : compare (m : ℤ) n = compare m n := by
  rcases lt_trichotomy m n with less | rfl | greater
  · rw [compare_lt_iff_lt.2 less, compare_lt_iff_lt.2 (Int.ofNat_lt.2 less)]
  · rw [compare_eq_iff_eq.2 rfl, compare_eq_iff_eq.2 rfl]
  · rw [compare_gt_iff_gt.2 greater, compare_gt_iff_gt.2 (Int.ofNat_lt.2 greater)]

/-- Numbers are compared by their ranks. -/
theorem compare_unpacked (x y : UnpackedFloat) :
    x.compare y = (rank? x).bind fun p => (rank? y).map (compare p) := by
  rcases x with (_ | _) | _ | _ | ⟨_ | _, m, e, _⟩ <;>
    rcases y with (_ | _) | _ | _ | ⟨_ | _, n, f, _⟩ <;>
    simp only [rank?, Option.bind_some, Option.bind_none, Option.map_some, Option.map_none, compare_toLex]
  case finite.negative.finite.negative =>
    rw [compare_neg e f, compare_neg m n, compare_natCast, ← Ordering.swap_then]
    rfl
  case finite.positive.finite.positive =>
    rw [compare_natCast]
    rfl
  all_goals rfl

def floatRank? (x : Float) : Option (ℤ ×ₗ ℤ ×ₗ ℤ) := rank? x.toModel.unpack

def rankOrder? (x y : Float) : Option Ordering :=
  (floatRank? x).bind fun p => (floatRank? y).map (compare p)

theorem lt_iff (x y : Float) : x < y ↔ rankOrder? x y = some .lt := by
  rw [rankOrder?, floatRank?, floatRank?, ← compare_unpacked]
  change (decide ((x.toModel.unpack.compare y.toModel.unpack == some .lt) = true)) = true ↔ _
  rw [decide_eq_true_eq, beq_iff_eq]

theorem beq_iff (x y : Float) : (x == y) = true ↔ rankOrder? x y = some .eq := by
  rw [rankOrder?, floatRank?, floatRank?, ← compare_unpacked]
  change (x.toModel.unpack.compare y.toModel.unpack == some .eq) = true ↔ _
  rw [beq_iff_eq]

/-- Two floating-point numbers have an order if neither is `NaN`, and it is that of their ranks. -/
theorem compareFloat?_eq (x y : Float) : compareFloat? x y = rankOrder? x y := by
  unfold compareFloat?
  simp only [lt_iff, beq_iff]
  unfold rankOrder?
  cases floatRank? x with
  | none => cases floatRank? y <;> rfl
  | some p =>
    cases floatRank? y with
    | none => rfl
    | some q =>
      rcases lt_trichotomy p q with less | rfl | greater
      · simp [compare_lt_iff_lt.2 less]
      · simp
      · simp [compare_gt_iff_gt.2 greater, compare_lt_iff_lt.2 greater]

/-! ## Numbers that are compared as floating-point numbers -/

variable {x y z : Float}

theorem compareFloat?_eq_some_iff {o : Ordering} : compareFloat? x y = some o ↔
    ∃ p q, floatRank? x = some p ∧ floatRank? y = some q ∧ compare p q = o := by
  rw [compareFloat?_eq, rankOrder?]
  cases floatRank? x <;> cases floatRank? y <;> simp

end Abacus.Binary64
