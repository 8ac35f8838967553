import Abacus.Number.Basic
import Mathlib

/-!
# Rounding to 53 binary digits

The result of an operation on floating-point numbers is rounded to the nearest number with 53
binary digits, and rounding never reverses the order of two positive rational numbers.
-/

namespace Abacus.Binary64

open Float.Model (UnpackedFloat Format totalExponent)
open Float.Model.UnpackedFloat

/-! ## Packing -/

theorem unpack_pack_infinity (s : Sign) :
    unpack Format.binary64 (pack Format.binary64 (.infinity s)) = .infinity s := by
  cases s <;> rfl

theorem unpack_pack_zero (s : Sign) :
    unpack Format.binary64 (pack Format.binary64 (.zero s)) = .zero s := by
  cases s <;> rfl

theorem unpack_pack_finite (s : Sign) {m : ℕ} {e : ℤ} (positive : 0 < m) (lower : 2 ^ 52 ≤ m)
    (upper : m < 2 ^ 53) (bound : -1074 ≤ e) :
    unpack Format.binary64 (pack Format.binary64 (.finite s m e positive)) =
      if e < 972 then .finite s m e positive else .infinity s := by
  have digits : m.log2 + 1 = 53 := by
    have least := (Nat.le_log2 positive.ne').2 lower
    have most := (Nat.log2_lt positive.ne').2 upper
    omega
  obtain ⟨b, biased⟩ : ∃ b : ℕ, e + 1075 = b := ⟨(e + 1075).toNat, by omega⟩
  have same : (e + (1023 : ℕ) + (52 : ℕ)).toNat = b := by omega
  unfold pack
  change unpack Format.binary64 (if 2 ^ 11 ≤ (e + (1023 : ℕ) + (52 : ℕ)).toNat + 1 then
    packedInfinity Format.binary64 s else if m.log2 + 1 = 53 then
      packComponents Format.binary64 s (BitVec.ofNat 11 (e + (1023 : ℕ) + (52 : ℕ)).toNat)
        (BitVec.ofNat 52 m) else _) = _
  rw [same, if_pos digits]
  split
  · rw [if_neg (by omega)]
    cases s <;> rfl
  · rename_i fits
    have exponent : (BitVec.ofNat 11 b).toNat = b := by
      rw [BitVec.toNat_ofNat, Nat.mod_eq_of_lt (by omega)]
    have apart {x : BitVec 11} (ne : b ≠ x.toNat) : BitVec.ofNat 11 b ≠ x :=
      fun same => ne (exponent.symm.trans (congrArg BitVec.toNat same))
    have notMax : BitVec.ofNat 11 b ≠ -1#11 := apart (by simp; omega)
    have notZero : BitVec.ofNat 11 b ≠ 0#11 := apart (by simp; omega)
    have mantissa : (1#1 ++ BitVec.ofNat 52 m).toNat = m := by
      rw [BitVec.toNat_append, ← Nat.shiftLeft_add_eq_or_of_lt (BitVec.isLt _), BitVec.toNat_ofNat]
      simp
      omega
    rw [if_pos (by omega)]
    unfold unpack
    simp only [unpackMantissa_packComponents, unpackExponent_packComponents,
      unpackSign_packComponents, Sign.ofBitVec_toBitVec]
    rw [if_neg notMax, if_neg notZero]
    have bias : Format.binary64.exponentBias = 1023 := rfl
    have exact' : (b : ℤ) - ((1023 : ℕ) + (52 : ℕ)) = e := by omega
    simp only [mantissa, exponent, bias, exact']

/-! ## Rounding a quotient -/

def nearest (n d : ℕ) : ℕ := (accuracyOfFraction (n % d) d).roundToNearestEven (n / d)

theorem roundToNearestEven_bounds (q : ℕ) (a : Accuracy) :
    q ≤ a.roundToNearestEven q ∧ a.roundToNearestEven q ≤ q + 1 := by
  rcases a with _ | (_ | _ | _) <;> simp only [Accuracy.roundToNearestEven] <;> omega

theorem roundToNearestEven_mono {q r r' d d' : ℕ} (positive' : 0 < d') (le : r * d' ≤ r' * d) :
    (accuracyOfFraction r d).roundToNearestEven q ≤
      (accuracyOfFraction r' d').roundToNearestEven q := by
  by_cases zero : r = 0
  · rw [accuracyOfFraction, if_pos zero]
    exact (roundToNearestEven_bounds q _).1
  · have nonzero' : r' ≠ 0 := fun zero' => by
      rw [zero', Nat.zero_mul] at le
      exact absurd (Nat.mul_pos (Nat.pos_of_ne_zero zero) positive') (Nat.not_lt.2 le)
    rw [accuracyOfFraction, if_neg zero, accuracyOfFraction, if_neg nonzero']
    rcases lt_trichotomy (2 * r) d with below | half | above
    · rw [compare_lt_iff_lt.2 below]
      exact (roundToNearestEven_bounds q _).1
    · have : d' ≤ 2 * r' := Nat.le_of_mul_le_mul_left (by rw [← half] at le; linarith)
        (Nat.pos_of_ne_zero zero)
      rcases Nat.lt_or_eq_of_le this with above' | half'
      · rw [compare_gt_iff_gt.2 above']
        exact (roundToNearestEven_bounds q _).2
      · rw [compare_eq_iff_eq.2 half, compare_eq_iff_eq.2 half'.symm]
    · have : d' < 2 * r' := Nat.lt_of_mul_lt_mul_left (a := r) (by
        calc r * d' ≤ r' * d := le
          _ < r' * (2 * r) := Nat.mul_lt_mul_of_pos_left above (Nat.pos_of_ne_zero nonzero')
          _ = r * (2 * r') := by ring)
      rw [compare_gt_iff_gt.2 above, compare_gt_iff_gt.2 this]

theorem nearest_mul (m : ℕ) {d : ℕ} (positive : 0 < d) : nearest (m * d) d = m := by
  rw [nearest, Nat.mul_mod_left, Nat.mul_div_cancel _ positive]
  rfl

theorem nearest_mono {n d n' d' : ℕ} (positive : 0 < d) (positive' : 0 < d')
    (le : n * d' ≤ n' * d) : nearest n d ≤ nearest n' d' := by
  unfold nearest
  have quotients : n / d ≤ n' / d' := by
    rw [Nat.le_div_iff_mul_le positive']
    refine Nat.le_of_mul_le_mul_right ?_ positive
    calc n / d * d' * d = n / d * d * d' := Nat.mul_right_comm _ _ _
      _ ≤ n * d' := Nat.mul_le_mul_right _ (Nat.div_mul_le_self n d)
      _ ≤ n' * d := le
  rcases Nat.lt_or_eq_of_le quotients with less | same
  · have lower := (roundToNearestEven_bounds (n' / d') (accuracyOfFraction (n' % d') d')).1
    have upper := (roundToNearestEven_bounds (n / d) (accuracyOfFraction (n % d) d)).2
    omega
  · rw [same]
    refine roundToNearestEven_mono positive' ?_
    have split := Nat.div_add_mod n d
    have split' := Nat.div_add_mod n' d'
    rw [same] at split
    nlinarith

/-- A quotient of 53 binary digits is rounded to 53 digits or up to the next power of two. -/
theorem nearest_bounds {n d : ℕ} (positive : 0 < d) (lower : 2 ^ 52 * d ≤ n)
    (upper : n < 2 ^ 53 * d) : 2 ^ 52 ≤ nearest n d ∧ nearest n d ≤ 2 ^ 53 := by
  have least : 2 ^ 52 ≤ n / d := (Nat.le_div_iff_mul_le positive).2 lower
  have most : n / d < 2 ^ 53 := (Nat.div_lt_iff_lt_mul positive).2 upper
  have bounds := roundToNearestEven_bounds (n / d) (accuracyOfFraction (n % d) d)
  unfold nearest
  omega

/-! ## Shifting a mantissa -/

theorem roundedMantissa_eq (q : ℕ) (a : Accuracy) :
    (ExtendedMantissa.ofMantissaAndAccuracy q a).roundedMantissa = a.roundToNearestEven q := by
  rcases a with _ | (_ | _ | _) <;> rfl

theorem shiftRightOne_eq {q r d : ℕ} (less : r < d) :
    (ExtendedMantissa.ofMantissaAndAccuracy q (accuracyOfFraction r d)).shiftRightOne =
      .ofMantissaAndAccuracy (q / 2) (accuracyOfFraction (r + d * (q % 2)) (d * 2)) := by
  have shifted (a : Accuracy) : (ExtendedMantissa.ofMantissaAndAccuracy q a).shiftRightOne =
      ⟨q / 2, q % 2 != 0, a matches .inexact _⟩ := by
    rcases a with _ | (_ | _ | _) <;> rfl
  rw [shifted, accuracyOfFraction, accuracyOfFraction]
  rcases Nat.mod_two_eq_zero_or_one q with even | odd
  · rw [even, Nat.mul_zero, Nat.add_zero]
    by_cases zero : r = 0
    · rw [if_pos zero, if_pos zero]
      rfl
    · rw [if_neg zero, if_neg zero, compare_lt_iff_lt.2 (by omega : 2 * r < d * 2)]
      rfl
  · rw [odd, Nat.mul_one, if_neg (by omega : r + d ≠ 0)]
    by_cases zero : r = 0
    · rw [if_pos zero, compare_eq_iff_eq.2 (by omega : 2 * (r + d) = d * 2)]
      rfl
    · rw [if_neg zero, compare_gt_iff_gt.2 (by omega : d * 2 < 2 * (r + d))]
      rfl

theorem repeat_shiftRightOne (n : ℕ) {d : ℕ} (positive : 0 < d) (k : ℕ) :
    k.repeat ExtendedMantissa.shiftRightOne
        (.ofMantissaAndAccuracy (n / d) (accuracyOfFraction (n % d) d)) =
      .ofMantissaAndAccuracy (n / (d * 2 ^ k))
        (accuracyOfFraction (n % (d * 2 ^ k)) (d * 2 ^ k)) := by
  induction k with
  | zero => rw [pow_zero, Nat.mul_one]; rfl
  | succ k inductionHypothesis =>
    rw [Nat.repeat, inductionHypothesis, shiftRightOne_eq (Nat.mod_lt _ (by positivity)),
      Nat.div_div_eq_div_mul, ← Nat.mod_mul, Nat.mul_assoc, ← Nat.pow_succ]

theorem shiftToTargetExponent_eq {n d : ℕ} {e : ℤ} {k : ℕ} (positive : 0 < d)
    (target : Format.binary64.targetExponent (totalExponent (n / d) e) = e + k) :
    shiftToTargetExponent Format.binary64 (n / d) e (accuracyOfFraction (n % d) d) =
      (.ofMantissaAndAccuracy (n / (d * 2 ^ k))
        (accuracyOfFraction (n % (d * 2 ^ k)) (d * 2 ^ k)), e + k) := by
  have amount : (e + k - e).toNat = k := by omega
  unfold shiftToTargetExponent shiftToExponent
  dsimp only
  rw [target, amount, ← repeat_shiftRightOne n positive]
  rfl

theorem shiftToTargetExponent_exact {m : ℕ} {e : ℤ} {k : ℕ}
    (target : Format.binary64.targetExponent (totalExponent m e) = e + k) :
    (shiftToTargetExponent Format.binary64 m e .exact).1.mantissa = m / 2 ^ k ∧
      (shiftToTargetExponent Format.binary64 m e .exact).2 = e + k := by
  have cut (q : ℕ) (a : Accuracy) : (ExtendedMantissa.ofMantissaAndAccuracy q a).mantissa = q := by
    rcases a with _ | (_ | _ | _) <;> rfl
  have whole : accuracyOfFraction (m % 1) 1 = .exact := by rw [Nat.mod_one]; rfl
  have shifted := shiftToTargetExponent_eq (n := m) Nat.one_pos (by rwa [Nat.div_one])
  rw [Nat.div_one, whole, Nat.one_mul] at shifted
  rw [shifted]
  exact ⟨cut _ _, rfl⟩

/-- The exponent that leaves 53 digits, unless it is below the smallest one. -/
theorem targetExponent_eq {m : ℕ} {e f : ℤ} (digits : m.log2 + e = 52 + f) (bound : -1074 ≤ f) :
    Format.binary64.targetExponent (totalExponent m e) = f := by
  have least : Format.binary64.minExponent = -1074 := rfl
  have width : Format.binary64.mantissaBits = 53 := rfl
  unfold Format.targetExponent totalExponent
  rw [least, width]
  omega

/-- Rounding shifts twice: the second time if the mantissa has been rounded up to one with more
    digits. -/
theorem roundWithAccuracy_of_targetExponent (s : Sign) {n d : ℕ} {e : ℤ} {k j : ℕ}
    (nonzero : 0 < d)
    (first : Format.binary64.targetExponent (totalExponent (n / d) e) = e + k)
    (second : Format.binary64.targetExponent (totalExponent (nearest n (d * 2 ^ k)) (e + k)) =
      e + k + j)
    (positive : 0 < nearest n (d * 2 ^ k) / 2 ^ j) :
    roundWithAccuracy Format.binary64 s (n / d) e (accuracyOfFraction (n % d) d) =
      .finite s (nearest n (d * 2 ^ k) / 2 ^ j) (e + k + j) positive := by
  have rounded : (ExtendedMantissa.ofMantissaAndAccuracy (n / (d * 2 ^ k))
      (accuracyOfFraction (n % (d * 2 ^ k)) (d * 2 ^ k))).roundedMantissa =
      nearest n (d * 2 ^ k) := roundedMantissa_eq _ _
  obtain ⟨mantissa, exponent⟩ := shiftToTargetExponent_exact second
  unfold roundWithAccuracy
  simp only [shiftToTargetExponent_eq nonzero first, rounded, mantissa, exponent]
  rw [dif_neg positive.ne']

/-! ## Rounding a number -/

/-- A mantissa and an exponent with 53 binary digits. -/
structure Normal (m : ℕ) (e : ℤ) : Prop where
  lower : 2 ^ 52 ≤ m
  upper : m < 2 ^ 53
  bound : -1074 ≤ e

theorem Normal.positive {m : ℕ} {e : ℤ} (normal : Normal m e) : 0 < m :=
  Nat.lt_of_lt_of_le (by omega) normal.lower

theorem Normal.log2_eq {m : ℕ} {e : ℤ} (normal : Normal m e) : m.log2 = 52 := by
  have least := (Nat.le_log2 normal.positive.ne').2 normal.lower
  have most := (Nat.log2_lt normal.positive.ne').2 normal.upper
  omega

/-- A positive rational as a quotient of 53 binary digits and a power of two. -/
structure Scaled (x : ℚ) (n d : ℕ) (f : ℤ) : Prop where
  positive : 0 < d
  lower : 2 ^ 52 * d ≤ n
  upper : n < 2 ^ 53 * d
  value : x = n / d * 2 ^ f

/-- A positive rational rounded to 53 binary digits.  Only its place in the order of the numbers of
    53 digits is given, since the quotient may be rounded up to one with more digits. -/
structure Rounded (x : ℚ) (m : ℕ) (e : ℤ) : Prop where
  normal : Normal m e
  scaled : ∃ n d f, Scaled x n d f ∧ e * 2 ^ 52 + m = f * 2 ^ 52 + nearest n d

theorem Scaled.bounds {x : ℚ} {n d : ℕ} {f : ℤ} (scaled : Scaled x n d f) :
    2 ^ 52 * 2 ^ f ≤ x ∧ x < 2 ^ 53 * 2 ^ f := by
  have positive : (0 : ℚ) < d := by exact_mod_cast scaled.positive
  have lower : (2 ^ 52 * d : ℚ) ≤ n := by exact_mod_cast scaled.lower
  have upper : (n : ℚ) < 2 ^ 53 * d := by exact_mod_cast scaled.upper
  have power : (0 : ℚ) < 2 ^ f := by positivity
  rw [scaled.value]
  exact ⟨mul_le_mul_of_nonneg_right ((le_div_iff₀ positive).2 lower) power.le,
    mul_lt_mul_of_pos_right ((div_lt_iff₀ positive).2 upper) power⟩

theorem Rounded.pos {x : ℚ} {m : ℕ} {e : ℤ} (rounded : Rounded x m e) : 0 < x := by
  obtain ⟨n, d, f, scaled, -⟩ := rounded.scaled
  exact lt_of_lt_of_le (by positivity) scaled.bounds.1

theorem Scaled.place_mono {x y : ℚ} {n d n' d' : ℕ} {f f' : ℤ} (left : Scaled x n d f)
    (right : Scaled y n' d' f') (le : x ≤ y) :
    f * 2 ^ 52 + nearest n d ≤ f' * 2 ^ 52 + (nearest n' d' : ℤ) := by
  rcases lt_trichotomy f f' with below | rfl | above
  · have most := (nearest_bounds left.positive left.lower left.upper).2
    have least := (nearest_bounds right.positive right.lower right.upper).1
    omega
  · have power : (0 : ℚ) < 2 ^ f := by positivity
    rw [left.value, right.value, mul_le_mul_iff_left₀ power,
      div_le_div_iff₀ (by exact_mod_cast left.positive) (by exact_mod_cast right.positive)] at le
    have := nearest_mono left.positive right.positive (by exact_mod_cast le)
    omega
  · have powers : (2 : ℚ) ^ f' * 2 ≤ 2 ^ f := by
      rw [← zpow_add_one₀ two_ne_zero]
      exact zpow_le_zpow_right₀ one_le_two (by omega)
    have := left.bounds.1
    have := right.bounds.2
    linarith

theorem Rounded.place_mono {x y : ℚ} {m m' : ℕ} {e e' : ℤ} (left : Rounded x m e)
    (right : Rounded y m' e') (le : x ≤ y) : e * 2 ^ 52 + m ≤ e' * 2 ^ 52 + (m' : ℤ) := by
  obtain ⟨n, d, f, scaled, place⟩ := left.scaled
  obtain ⟨n', d', f', scaled', place'⟩ := right.scaled
  rw [place, place']
  exact scaled.place_mono scaled' le

theorem scaled_of_log2 {n d : ℕ} {e : ℤ} {k : ℕ} (positive : 0 < d) (large : d ≤ n)
    (digits : (n / d).log2 = 52 + k) : Scaled (n / d * 2 ^ e) n (d * 2 ^ k) (e + k) := by
  have nonzero : n / d ≠ 0 := (Nat.div_pos large positive).ne'
  have least := (Nat.le_log2 nonzero).1 digits.ge
  have most := (Nat.log2_lt nonzero).1 (show (n / d).log2 < 53 + k by omega)
  rw [Nat.le_div_iff_mul_le positive] at least
  rw [Nat.div_lt_iff_lt_mul positive] at most
  refine ⟨by positivity, ?_, ?_, ?_⟩
  · calc 2 ^ 52 * (d * 2 ^ k) = 2 ^ (52 + k) * d := by ring
      _ ≤ n := least
  · calc n < 2 ^ (53 + k) * d := most
      _ = 2 ^ 53 * (d * 2 ^ k) := by ring
  · have : (d : ℚ) ≠ 0 := by exact_mod_cast positive.ne'
    rw [zpow_add₀ two_ne_zero, zpow_natCast]
    push_cast
    field_simp

theorem roundWithAccuracy_eq (s : Sign) {n d : ℕ} {e : ℤ} {k : ℕ} (positive : 0 < d)
    (large : d ≤ n) (digits : (n / d).log2 = 52 + k) (bound : -1074 ≤ e + k) :
    ∃ m' e', ∃ rounded : Rounded (n / d * 2 ^ e) m' e',
      roundWithAccuracy Format.binary64 s (n / d) e (accuracyOfFraction (n % d) d) =
        .finite s m' e' rounded.normal.positive := by
  have first : Format.binary64.targetExponent (totalExponent (n / d) e) = e + k :=
    targetExponent_eq (by omega) bound
  have scaled := scaled_of_log2 (e := e) positive large digits
  have bounds := nearest_bounds scaled.positive scaled.lower scaled.upper
  -- Only a mantissa that is rounded up to `2 ^ 53` is shifted again.
  obtain ⟨j, normal, place, second⟩ : ∃ j : ℕ, Normal (nearest n (d * 2 ^ k) / 2 ^ j) (e + k + j) ∧
      (e + k + j) * 2 ^ 52 + (nearest n (d * 2 ^ k) / 2 ^ j : ℕ) =
        (e + k) * 2 ^ 52 + (nearest n (d * 2 ^ k) : ℤ) ∧
      Format.binary64.targetExponent (totalExponent (nearest n (d * 2 ^ k)) (e + k)) =
        e + k + j := by
    rcases Nat.lt_or_eq_of_le bounds.2 with less | overflow
    · have normal : Normal (nearest n (d * 2 ^ k)) (e + k) := ⟨bounds.1, less, bound⟩
      have digits := normal.log2_eq
      refine ⟨0, ?_, ?_, targetExponent_eq (by omega) (by omega)⟩ <;>
        rw [pow_zero, Nat.div_one, Nat.cast_zero, add_zero]
      exact normal
    · rw [overflow]
      refine ⟨1, ⟨by decide, by decide, by omega⟩, by omega, targetExponent_eq ?_ (by omega)⟩
      rw [Nat.log2_two_pow]
      omega
  exact ⟨_, _, ⟨normal, _, _, _, scaled, place⟩,
    roundWithAccuracy_of_targetExponent s positive first second normal.positive⟩

end Abacus.Binary64
