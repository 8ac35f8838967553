import Abacus.Number.Arithmetic
import Mathlib.Data.Rat.Floor
import Mathlib.Data.Rat.Lemmas
import Mathlib.Data.Sign.Basic
import Mathlib.Order.Compare
import Mathlib.Tactic.FieldSimp
import Mathlib.Tactic.Linarith
import Mathlib.Tactic.Positivity
import Mathlib.Tactic.Ring

/-!
# Exact numbers as rationals

An exact number denotes a rational number, and a reduced one is determined by the
rational number that it denotes.  On reduced exact numbers the operations are those of
the ordered field of rationals, and the only failure is a division by zero.
-/

namespace Abacus.Number

/-- The rational number that an exact number stands for. -/
def value? : Number → Option ℚ
  | .integer n => some n
  | .fraction n d => some (n / d)
  | .float _ => none

/-- A reduced exact number together with the rational number that it stands for. -/
structure Denotes (a : Number) (q : ℚ) : Prop where
  reduced : a.Reduced
  value : a.value? = some q

/-- An operation succeeds with a reduced exact number for `q`. -/
def Yields (result : Except EvalError Number) (q : ℚ) : Prop :=
  ∃ a, result = .ok a ∧ a.Denotes q

/-- An integer nearest to `q`; of two that are equally near, the one further from
    zero. -/
def Nearest (q : ℚ) (k : ℤ) : Prop :=
  ∀ j : ℤ, |q - k| < |q - j| ∨ |q - k| = |q - j| ∧ |j| ≤ |k|

theorem exists_denotes_iff {a : Number} :
    (∃ q, a.Denotes q) ↔ a.Reduced ∧ ∀ x, a ≠ .float x := by
  constructor
  · rintro ⟨q, reduced, value⟩
    exact ⟨reduced, fun x same => by cases same; cases value⟩
  · rintro ⟨reduced, exact'⟩
    cases a with
    | integer n => exact ⟨n, reduced, rfl⟩
    | fraction n d => exact ⟨n / d, reduced, rfl⟩
    | float x => exact absurd rfl (exact' x)

theorem denotes_integer (n : ℤ) : (Number.integer n).Denotes n := ⟨trivial, rfl⟩

theorem Reduced.numerator_ne_zero {n : ℤ} {d : ℕ} (reduced : (fraction n d).Reduced) : n ≠ 0 := by
  rintro rfl
  have lowest := reduced.2
  simp only [Int.zero_gcd, Int.natAbs_natCast] at lowest
  exact absurd reduced.1 (by omega)

/-! ## Terms -/

/-- The terms of a rational number as a number keeps them. -/
structure Terms (a : Number) (q : ℚ) (n : ℤ) (d : ℕ) : Prop where
  terms : a.terms? = some (n, d)
  positive : 0 < d
  coprime : n.gcd d = 1
  value : q = n / d

theorem Denotes.terms {a : Number} {q : ℚ} (denotes : a.Denotes q) : ∃ n d, a.Terms q n d := by
  obtain ⟨reduced, value⟩ := denotes
  cases a with
  | integer n => exact ⟨n, 1, rfl, Nat.one_pos, by simp, by simpa [value?] using value.symm⟩
  | fraction n d =>
    exact ⟨n, d, rfl, by have := reduced.1; omega, reduced.2, by simpa [value?] using value.symm⟩
  | float x => cases value

theorem Terms.denominator_ne_zero {a : Number} {q : ℚ} {n : ℤ} {d : ℕ} (terms : a.Terms q n d) :
    (d : ℚ) ≠ 0 := by
  have := terms.positive
  positivity

theorem Terms.numerator_eq_zero {a : Number} {q : ℚ} {n : ℤ} {d : ℕ} (terms : a.Terms q n d) :
    n = 0 ↔ q = 0 := by
  rw [terms.value, div_eq_zero_iff, Int.cast_eq_zero, or_iff_left terms.denominator_ne_zero]

theorem Denotes.unique {a b : Number} {q : ℚ} (left : a.Denotes q) (right : b.Denotes q) :
    a = b := by
  obtain ⟨n, d, ofLeft⟩ := left.terms
  obtain ⟨m, e, ofRight⟩ := right.terms
  have sameValue : (n : ℚ) / (d : ℤ) = (m : ℚ) / (e : ℤ) := by
    push_cast
    rw [← ofLeft.value, ← ofRight.value]
  obtain ⟨rfl, same⟩ := Rat.div_int_inj (Int.natCast_pos.2 ofLeft.positive)
    (Int.natCast_pos.2 ofRight.positive) ofLeft.coprime ofRight.coprime sameValue
  have sameTerms : a.terms? = b.terms? := by
    rw [ofLeft.terms, ofRight.terms, Int.ofNat_inj.1 same]
  have reducedLeft := left.reduced
  have reducedRight := right.reduced
  cases a <;> cases b <;> simp_all [terms?, Reduced]
  exact absurd ofLeft.terms (by simp [terms?])

theorem Denotes.terms_eq {a : Number} {q : ℚ} (denotes : a.Denotes q) :
    a.terms? = some (q.num, q.den) := by
  obtain ⟨n, d, terms⟩ := denotes.terms
  have positive : (0 : ℤ) < d := Int.natCast_pos.2 terms.positive
  have value : q = n / (d : ℤ) := by rw [terms.value, Int.cast_natCast]
  rw [terms.terms, value, Rat.num_div_eq_of_coprime positive terms.coprime, Option.some.injEq,
    Prod.mk.injEq]
  exact ⟨rfl, by exact_mod_cast (Rat.den_div_eq_of_coprime positive terms.coprime).symm⟩

theorem ofQuotient_yields {n d : ℤ} {q : ℚ} (nonzero : d ≠ 0) (value : q = n / d) :
    Yields (ofQuotient n d) q := by
  have positive : 0 < n.gcd d := Int.gcd_pos_of_ne_zero_right n nonzero
  obtain ⟨common, n', d', commonPositive, coprime, numerator_eq, denominator_eq⟩ :=
    Int.exists_gcd_one' positive
  have commonNonzero : (common : ℤ) ≠ 0 := by omega
  have nonzero' : d' ≠ 0 := by
    rintro rfl
    exact nonzero (by rw [denominator_eq, zero_mul])
  have gcd_eq : n.gcd d = common := by
    rw [numerator_eq, denominator_eq, Int.gcd_mul_right, coprime, one_mul, Int.natAbs_natCast]
  have numerator : n / (n.gcd d : ℤ) * d.sign = n' * d'.sign := by
    rw [gcd_eq, numerator_eq, denominator_eq, Int.mul_ediv_cancel _ commonNonzero, Int.sign_mul,
      Int.sign_natCast_of_ne_zero (by omega), mul_one]
  have denominator : d.natAbs / n.gcd d = d'.natAbs := by
    rw [gcd_eq, denominator_eq, Int.natAbs_mul, Int.natAbs_natCast,
      Nat.mul_div_cancel _ commonPositive]
  have value' : q = ((n' * d'.sign : ℤ) : ℚ) / (d'.natAbs : ℕ) := by
    have cancelled : (n : ℚ) / d = n' / d' := by
      rw [numerator_eq, denominator_eq]
      push_cast
      exact mul_div_mul_right _ _ (by exact_mod_cast commonNonzero)
    rw [value, cancelled, div_eq_div_iff (by exact_mod_cast nonzero') (by simpa using nonzero')]
    have signs : d'.sign * d' = d'.natAbs := by rw [Int.sign_mul_self_eq_abs, Int.abs_eq_natAbs]
    rw [← Int.cast_natCast, ← signs]
    push_cast
    ring
  have lowest : (n' * d'.sign).gcd d'.natAbs = 1 := by
    rw [Int.gcd, Int.natAbs_mul, Int.natAbs_sign_of_ne_zero nonzero', mul_one]
    exact coprime
  unfold ofQuotient
  rw [if_neg nonzero]
  dsimp only
  rw [numerator, denominator]
  refine ⟨_, rfl, ?_⟩
  split
  · rename_i whole
    exact ⟨trivial, by simpa [whole, value?] using value'.symm⟩
  · rename_i several
    exact ⟨⟨by have := Int.natAbs_pos.2 nonzero'; omega, lowest⟩, congrArg some value'.symm⟩

/-! ## Arithmetic -/

theorem Denotes.isZero {b : Number} {q : ℚ} (denotes : b.Denotes q) : b.isZero ↔ q = 0 := by
  obtain ⟨reduced, value⟩ := denotes
  cases b with
  | integer n =>
    cases value
    simp [Number.isZero]
  | fraction n d =>
    cases value
    simp only [Number.isZero, Bool.false_eq_true, div_eq_zero_iff, Int.cast_eq_zero, false_iff,
      Nat.cast_eq_zero, not_or]
    exact ⟨reduced.numerator_ne_zero, by have := reduced.1; omega⟩
  | float x => cases value

theorem over_denominators {a b : Number} {p q r : ℚ} {n m numerator : ℤ} {d e : ℕ}
    (ofLeft : a.Terms p n d) (ofRight : b.Terms q m e) (value : r = numerator / (d * e)) :
    Yields (ofQuotient numerator (d * e)) r := by
  refine ofQuotient_yields ?_ ?_
  · exact_mod_cast mul_ne_zero ofLeft.denominator_ne_zero ofRight.denominator_ne_zero
  · rw [value]
    push_cast
    rfl

section

variable {a b : Number} {p q : ℚ} (left : a.Denotes p) (right : b.Denotes q)

include left right

/-- What an operation makes of exact numbers is what it makes of their terms. -/
theorem lift_yields {r : ℚ} {exact' : Int × Nat → Int × Nat → Except EvalError Number}
    {approximate : Float → Float → Float}
    (yields : ∀ n d m e, a.Terms p n d → b.Terms q m e → Yields (exact' (n, d) (m, e)) r) :
    Yields (lift exact' approximate a b) r := by
  obtain ⟨n, d, ofLeft⟩ := left.terms
  obtain ⟨m, e, ofRight⟩ := right.terms
  rw [lift, ofLeft.terms, ofRight.terms]
  exact yields n d m e ofLeft ofRight

theorem Denotes.add : Yields (a.add b) (p + q) := by
  refine lift_yields left right fun n d m e ofLeft ofRight => over_denominators ofLeft ofRight ?_
  rw [ofLeft.value, ofRight.value, div_add_div _ _ ofLeft.denominator_ne_zero
    ofRight.denominator_ne_zero]
  push_cast
  ring

theorem Denotes.sub : Yields (a.sub b) (p - q) := by
  refine lift_yields left right fun n d m e ofLeft ofRight => over_denominators ofLeft ofRight ?_
  rw [ofLeft.value, ofRight.value, div_sub_div _ _ ofLeft.denominator_ne_zero
    ofRight.denominator_ne_zero]
  push_cast
  ring

theorem Denotes.mul : Yields (a.mul b) (p * q) := by
  refine lift_yields left right fun n d m e ofLeft ofRight => over_denominators ofLeft ofRight ?_
  rw [ofLeft.value, ofRight.value, div_mul_div_comm]
  push_cast
  rfl

end

/-! ## Division -/

section

variable {a b : Number} {p q : ℚ} (left : a.Denotes p) (right : b.Denotes q)

include right in
theorem unlessZero_eq (op : Number → Number → Except EvalError Number) :
    unlessZero op a b = if q = 0 then .error .divisionByZero else op a b := by
  simp only [unlessZero, right.isZero]

theorem floor_div_eq_fdiv (n d : ℤ) : ⌊(n : ℚ) / d⌋ = n.fdiv d := by
  rcases Int.le_total 0 d with positive | negative
  · lift d to ℕ using positive
    rw [Int.fdiv_eq_ediv_of_nonneg _ (Int.natCast_nonneg d), ← Rat.floor_intCast_div_natCast]
    push_cast
    rfl
  · obtain ⟨d, rfl⟩ : ∃ e : ℕ, d = -e := ⟨d.natAbs, by omega⟩
    rw [← Int.neg_fdiv_neg, neg_neg, Int.fdiv_eq_ediv_of_nonneg _ (Int.natCast_nonneg d),
      ← Rat.floor_intCast_div_natCast]
    push_cast
    rw [div_neg, neg_div]

theorem Terms.div {n m : ℤ} {d e : ℕ} (ofLeft : a.Terms p n d) (ofRight : b.Terms q m e) :
    p / q = ((n * e : ℤ) : ℚ) / ((d * m : ℤ) : ℚ) := by
  rw [ofLeft.value, ofRight.value, div_div_div_eq]
  push_cast
  rfl

include left right

theorem Denotes.div (nonzero : q ≠ 0) : Yields (a.div b) (p / q) := by
  rw [Number.div, unlessZero_eq right, if_neg nonzero]
  refine lift_yields left right fun n d m e ofLeft ofRight => ?_
  refine ofQuotient_yields (mul_ne_zero ?_ ?_) (ofLeft.div ofRight)
  · exact_mod_cast ofLeft.denominator_ne_zero
  · exact mt ofRight.numerator_eq_zero.1 nonzero

theorem Denotes.floorDiv (nonzero : q ≠ 0) : Yields (a.floorDiv b) ⌊p / q⌋ := by
  rw [Number.floorDiv, unlessZero_eq right, if_neg nonzero]
  refine lift_yields left right fun n d m e ofLeft ofRight => ⟨_, rfl, ?_⟩
  rw [ofLeft.div ofRight, floor_div_eq_fdiv]
  exact denotes_integer _

theorem Denotes.floorMod (nonzero : q ≠ 0) : Yields (a.floorMod b) (p - q * ⌊p / q⌋) := by
  rw [Number.floorMod, unlessZero_eq right, if_neg nonzero]
  refine lift_yields left right fun n d m e ofLeft ofRight => over_denominators ofLeft ofRight ?_
  have nonzero := ofLeft.denominator_ne_zero
  have nonzero' := ofRight.denominator_ne_zero
  rw [ofLeft.div ofRight, floor_div_eq_fdiv, Int.fmod_def, mul_comm m, ofLeft.value, ofRight.value]
  push_cast
  field_simp

end

theorem remainder_sign {p q : ℚ} (nonzero : q ≠ 0) :
    0 ≤ (p - q * ⌊p / q⌋) * q ∧ |p - q * ⌊p / q⌋| < |q| := by
  have remainder : p - q * ⌊p / q⌋ = q * Int.fract (p / q) := by
    rw [Int.fract, mul_sub, mul_div_cancel₀ _ nonzero]
  have nonneg := Int.fract_nonneg (p / q)
  rw [remainder]
  constructor
  · nlinarith [mul_self_nonneg q]
  · rw [abs_mul, abs_of_nonneg nonneg]
    exact mul_lt_of_lt_one_right (abs_pos.2 nonzero) (Int.fract_lt_one _)

/-! ## Order -/

theorem Denotes.compare? {a b : Number} {p q : ℚ} (left : a.Denotes p) (right : b.Denotes q) :
    a.compare? b = some (compare p q) := by
  obtain ⟨n, d, ofLeft⟩ := left.terms
  obtain ⟨m, e, ofRight⟩ := right.terms
  have positive : (0 : ℚ) < d := by exact_mod_cast ofLeft.positive
  have positive' : (0 : ℚ) < e := by exact_mod_cast ofRight.positive
  simp only [Number.compare?, ofLeft.terms, ofRight.terms, Option.some.injEq]
  rw [ofLeft.value, ofRight.value]
  rcases lt_trichotomy (n * e : ℤ) (m * d) with less | same | greater
  · rw [compare_lt_iff_lt.2 less, eq_comm, compare_lt_iff_lt, div_lt_div_iff₀ positive positive']
    exact_mod_cast less
  · rw [compare_eq_iff_eq.2 same, eq_comm, compare_eq_iff_eq, div_eq_div_iff positive.ne' positive'.ne']
    exact_mod_cast same
  · rw [compare_gt_iff_gt.2 greater, eq_comm, compare_gt_iff_gt,
      div_lt_div_iff₀ positive' positive]
    exact_mod_cast greater

theorem Denotes.eq_iff {a b : Number} {p q : ℚ} (left : a.Denotes p) (right : b.Denotes q) :
    a = b ↔ p = q := by
  constructor
  · rintro rfl
    exact Option.some.inj (left.value.symm.trans right.value)
  · rintro rfl
    exact left.unique right

theorem same_iff_eq {a b : Number} {p : ℚ} (left : a.Denotes p) : a.same b ↔ a = b := by
  have := left.value
  cases a <;> cases b <;> simp_all [same, value?]

/-! ## One number -/

section

variable {a : Number} {q : ℚ} (denotes : a.Denotes q)

include denotes

theorem Denotes.negate : a.negate.Denotes (-q) := by
  obtain ⟨reduced, value⟩ := denotes
  cases a with
  | integer n =>
    cases value
    exact_mod_cast denotes_integer (-n)
  | fraction n d =>
    cases value
    exact ⟨⟨reduced.1, by rw [Int.neg_gcd]; exact reduced.2⟩, by
      simp [Number.negate, value?, neg_div]⟩
  | float x => cases value

theorem Denotes.abs : a.abs.Denotes |q| := by
  obtain ⟨reduced, value⟩ := denotes
  cases a with
  | integer n =>
    cases value
    exact ⟨trivial, by simp [Number.abs, value?]⟩
  | fraction n d =>
    cases value
    exact ⟨⟨reduced.1, by
      rw [Int.gcd, Int.natAbs_natCast]
      exact reduced.2⟩, by
      simp [Number.abs, value?, abs_div]⟩
  | float x => cases value

theorem Denotes.sign : a.sign.Denotes (SignType.sign q : ℤ) := by
  have compared := denotes.compare? (denotes_integer 0)
  rw [Int.cast_zero] at compared
  rw [Number.sign, compared]
  rcases lt_trichotomy q 0 with negative | rfl | positive
  · rw [compare_lt_iff_lt.2 negative, sign_neg negative]
    exact_mod_cast denotes_integer (-1)
  · rw [compare_eq_iff_eq.2 rfl, sign_zero]
    exact_mod_cast denotes_integer 0
  · rw [compare_gt_iff_gt.2 positive, sign_pos positive]
    exact_mod_cast denotes_integer 1

theorem Denotes.floor : a.floor.Denotes ⌊q⌋ := by
  obtain ⟨reduced, value⟩ := denotes
  cases a with
  | integer n =>
    cases value
    rw [Int.floor_intCast]
    exact denotes_integer n
  | fraction n d =>
    cases value
    rw [← Int.cast_natCast, floor_div_eq_fdiv]
    exact denotes_integer _
  | float x => cases value

theorem Denotes.ceil : a.ceil.Denotes ⌈q⌉ := by
  obtain ⟨reduced, value⟩ := denotes
  cases a with
  | integer n =>
    cases value
    rw [Int.ceil_intCast]
    exact denotes_integer n
  | fraction n d =>
    cases value
    rw [← Int.cast_natCast, ← neg_neg ((n : ℚ) / _), Int.ceil_neg, ← neg_div, ← Int.cast_neg,
      floor_div_eq_fdiv]
    exact denotes_integer _
  | float x => cases value

end

/-! ## Rounding -/

theorem Nearest.neg {q : ℚ} {k : ℤ} (nearest : Nearest q k) : Nearest (-q) (-k) := by
  intro j
  have mirrored := nearest (-j)
  have distance (i : ℤ) : |-q - ((-i : ℤ) : ℚ)| = |q - i| := by
    rw [← abs_neg]
    push_cast
    ring_nf
  rw [distance, abs_neg, ← abs_neg j, ← neg_neg j, distance, neg_neg]
  exact mirrored

/-- Adding a half and rounding down gives the nearest integer of a number that is not
    negative. -/
theorem nearest_of_bounds {q : ℚ} {k : ℕ} (nonneg : 0 ≤ q) (lower : (k : ℚ) ≤ q + 1 / 2)
    (upper : q + 1 / 2 < k + 1) : Nearest q k := by
  intro j
  have near : |q - (k : ℤ)| ≤ 1 / 2 := by
    rw [abs_le]
    push_cast
    constructor <;> linarith
  rcases lt_trichotomy j k with below | rfl | above
  · -- A smaller integer is at least as far, and at the same distance nearer to zero.
    have bound : (j : ℚ) + 1 ≤ k := by exact_mod_cast below
    have far : |q - j| = q - j := abs_of_nonneg (by linarith)
    rcases lt_or_eq_of_le (show |q - (k : ℤ)| ≤ |q - j| by rw [far]; linarith) with closer | tie
    · exact .inl closer
    · refine .inr ⟨tie, ?_⟩
      have : -1 < (j : ℚ) := by linarith
      have : -1 < j := by exact_mod_cast this
      rw [abs_of_nonneg (by omega), abs_of_nonneg (by omega)]
      omega
  · exact .inr ⟨rfl, le_rfl⟩
  · have bound : (k : ℚ) + 1 ≤ j := by exact_mod_cast above
    refine .inl (near.trans_lt ?_)
    rw [abs_of_nonpos (by linarith)]
    linarith

theorem nearest_div (n : ℕ) {d : ℕ} (positive : 0 < d) :
    Nearest ((n : ℚ) / d) (((2 * n + d) / (2 * d) : ℕ) : ℤ) := by
  have positive' : (0 : ℚ) < d := by exact_mod_cast positive
  have half : (n : ℚ) / d + 1 / 2 = ((2 * n + d : ℕ) : ℚ) / ((2 * d : ℕ) : ℚ) := by
    push_cast
    field_simp
  refine nearest_of_bounds (by positivity) ?_ ?_
  · rw [half]
    rw [le_div_iff₀ (by positivity)]
    exact_mod_cast Nat.div_mul_le_self _ _
  · rw [half, div_lt_iff₀ (by positivity)]
    rw [add_one_mul]
    exact_mod_cast Nat.lt_div_mul_add (by omega)

theorem Denotes.round {a : Number} {q : ℚ} (denotes : a.Denotes q) :
    ∃ k : ℤ, a.round = .integer k ∧ Nearest q k := by
  obtain ⟨reduced, value⟩ := denotes
  cases a with
  | integer n =>
    cases value
    refine ⟨n, rfl, fun j => ?_⟩
    rw [sub_self, abs_zero]
    by_cases same : j = n
    · exact .inr ⟨by rw [same, sub_self, abs_zero], same ▸ le_rfl⟩
    · exact .inl (abs_pos.2 (sub_ne_zero.2 (by exact_mod_cast Ne.symm same)))
  | fraction n d =>
    cases value
    refine ⟨_, rfl, ?_⟩
    have nearest := nearest_div n.natAbs (show 0 < d by have := reduced.1; omega)
    split
    · rename_i negative
      have mirrored : (n : ℚ) / d = -((n.natAbs : ℚ) / d) := by
        rw [Nat.cast_natAbs, abs_of_neg negative]
        push_cast
        ring
      rw [mirrored]
      exact nearest.neg
    · rename_i nonneg
      rw [Nat.cast_natAbs, abs_of_nonneg (not_lt.1 nonneg)] at nearest
      exact nearest
  | float x => cases value

/-! ## The field of rationals -/

/-- Exact arithmetic is that of the ordered field of rationals: every operation on
    reduced exact numbers gives a reduced exact number for the rational result,
    divisions fail for the divisor zero and nothing else fails, and numbers are equal when
    they compare as equal. -/
theorem exact_arithmetic {a b : Number} {p q : ℚ} (left : a.Denotes p) (right : b.Denotes q) :
    (Yields (a.add b) (p + q) ∧ Yields (a.sub b) (p - q) ∧ Yields (a.mul b) (p * q)) ∧
    (q = 0 → a.div b = .error .divisionByZero ∧ a.floorDiv b = .error .divisionByZero ∧
      a.floorMod b = .error .divisionByZero) ∧
    (q ≠ 0 → Yields (a.div b) (p / q) ∧ Yields (a.floorDiv b) ⌊p / q⌋ ∧
      ∃ r, Yields (a.floorMod b) r ∧ r = p - q * ⌊p / q⌋ ∧ 0 ≤ r * q ∧ |r| < |q|) ∧
    (a.negate.Denotes (-p) ∧ a.abs.Denotes |p| ∧ a.sign.Denotes (SignType.sign p : ℤ)) ∧
    (a.floor.Denotes ⌊p⌋ ∧ a.ceil.Denotes ⌈p⌉ ∧ ∃ k : ℤ, a.round.Denotes k ∧ Nearest p k) ∧
    a.compare? b = some (compare p q) ∧ (a.same b ↔ a.compare? b = some .eq) ∧
    (a = b ↔ a.compare? b = some .eq) := by
  have compared : a.compare? b = some .eq ↔ a = b := by
    rw [left.compare? right, Option.some.injEq, compare_eq_iff_eq, left.eq_iff right]
  refine ⟨⟨left.add right, left.sub right, left.mul right⟩, fun zero => ?_, fun nonzero => ?_,
    ⟨left.negate, left.abs, left.sign⟩, ⟨left.floor, left.ceil, ?_⟩, left.compare? right,
    (same_iff_eq left).trans compared.symm, compared.symm⟩
  · have refused := unlessZero_eq right (a := a)
    simp only [if_pos zero] at refused
    exact ⟨refused _, refused _, refused _⟩
  · exact ⟨left.div right nonzero, left.floorDiv right nonzero, _, left.floorMod right nonzero, rfl,
      remainder_sign nonzero⟩
  · obtain ⟨k, rounded, nearest⟩ := left.round
    exact ⟨k, rounded ▸ denotes_integer k, nearest⟩

/-- The quotient of -3/2 and 5/6 is -9/5; rounded down it is -2, and 1/6 remains. -/
theorem exact_arithmetic_three_halves :
    Yields ((fraction (-3) 2).div (fraction 5 6)) (-(9 / 5)) ∧
      Yields ((fraction (-3) 2).floorDiv (fraction 5 6)) (-2) ∧
      Yields ((fraction (-3) 2).floorMod (fraction 5 6)) (1 / 6) ∧
      (fraction (-3) 2).round = .integer (-2) := by
  have left : (fraction (-3) 2).Denotes (-3 / 2) := ⟨⟨by decide, by decide⟩, by simp [value?]⟩
  have right : (fraction 5 6).Denotes (5 / 6) := ⟨⟨by decide, by decide⟩, by simp [value?]⟩
  obtain ⟨-, -, divided, -⟩ := exact_arithmetic left right
  obtain ⟨quotient, rounded, r, remainder, rfl, -⟩ := divided (by norm_num)
  norm_num at quotient rounded remainder
  exact ⟨quotient, by exact_mod_cast rounded, remainder, rfl⟩

end Abacus.Number
