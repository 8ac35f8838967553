import Abacus.Number.Power
import Abacus.Proofs.Number.Rational
import Mathlib.Data.Nat.Size

/-!
# Exact powers

An exact number to an integer exponent is the power in the field of rationals.  It is computed from
the powers of numerator and denominator, and each of them is refused if it could have too many
binary digits.  The parts 0, 1 and -1 are never refused: the exponent is replaced by one of three
that give the same power.
-/

namespace Abacus

/-! ## Binary digits -/

theorem bitLength_eq_size (n : ℕ) : bitLength n = n.size := by
  unfold bitLength
  split
  · rename_i zero
    rw [zero, Nat.size_zero]
  · rename_i nonzero
    exact le_antisymm (Nat.lt_size.2 (Nat.log2_self_le nonzero))
      (Nat.size_le.2 Nat.lt_log2_self)

theorem size_pow_le (n : ℕ) {e : ℕ} (positive : 0 < e) : (n ^ e).size ≤ n.size * e := by
  rw [Nat.size_le, pow_mul]
  exact Nat.pow_lt_pow_left n.lt_size_self positive.ne'

/-! ## Powers of one part -/

namespace Number

/-- Whether a part of a number is refused as the base of a power: the exponent has no 32 bits, or
    the power could have more than 2^24. -/
def Exceeds (part exponent : ℤ) : Prop :=
  (part ≠ 0 ∧ part ≠ 1 ∧ part ≠ -1) ∧
    (2 ^ 32 ≤ exponent.natAbs ∨ 2 ^ 24 < part.natAbs.size * exponent.natAbs)

instance (part exponent : ℤ) : Decidable (Exceeds part exponent) :=
  inferInstanceAs (Decidable (_ ∧ _))

theorem unit_or_large (part : ℤ) :
    part.natAbs ≤ 1 ∧ (part = 0 ∨ part = 1 ∨ part = -1) ∨
      ¬ part.natAbs ≤ 1 ∧ part ≠ 0 ∧ part ≠ 1 ∧ part ≠ -1 := by
  omega

theorem unit_pow {part : ℤ} (unit : part = 0 ∨ part = 1 ∨ part = -1) (e : ℕ) :
    part ^ (if (e : ℤ) = 0 then 0 else if (e : ℤ) % 2 = 1 then 1 else 2) = part ^ e := by
  rcases Nat.eq_zero_or_pos e with rfl | positive
  · rfl
  · rw [if_neg (by omega)]
    rcases Nat.mod_two_eq_zero_or_one e with even | odd
    · rw [if_neg (by omega)]
      rcases unit with rfl | rfl | rfl
      · rw [zero_pow positive.ne', zero_pow two_ne_zero]
      · rw [one_pow, one_pow]
      · rw [Even.neg_one_pow (Nat.even_iff.2 even), neg_one_sq]
    · rw [if_pos (by omega), pow_one]
      rcases unit with rfl | rfl | rfl
      · rw [zero_pow positive.ne']
      · rw [one_pow]
      · rw [Odd.neg_one_pow (Nat.odd_iff.2 odd)]

theorem boundedExponent_eq (part : ℤ) (e : ℕ) :
    boundedExponent part e =
      if part.natAbs ≤ 1 then
        .ok (if (e : ℤ) = 0 then 0 else if (e : ℤ) % 2 = 1 then 1 else 2)
      else if 2 ^ 32 ≤ e ∨ 2 ^ 24 < part.natAbs.size * e then .error .tooLarge
      else .ok e := by
  unfold boundedExponent
  refine if_congr Iff.rfl rfl (if_congr ?_ rfl (by rw [Int.natAbs_natCast]))
  rw [Bool.or_eq_true, Bool.or_eq_true, decide_eq_true_eq, decide_eq_true_eq, decide_eq_true_eq,
    bitLength_eq_size, Int.natAbs_natCast, exponentLimit, powerBitsLimit, Nat.pow_eq, Nat.pow_eq]
  omega

theorem boundedExponent_of_exceeds {part : ℤ} {e : ℕ} (exceeds : Exceeds part e) :
    boundedExponent part e = .error .tooLarge := by
  obtain ⟨large, beyond⟩ := exceeds
  rw [Int.natAbs_natCast] at beyond
  rw [boundedExponent_eq, if_neg (by omega), if_pos beyond]

theorem boundedExponent_of_not_exceeds {part : ℤ} {e : ℕ} (bounded : ¬ Exceeds part e) :
    ∃ same, boundedExponent part e = .ok same ∧ part ^ same = part ^ e := by
  rw [boundedExponent_eq]
  rcases unit_or_large part with ⟨small, unit⟩ | ⟨large, other⟩
  · exact ⟨_, if_pos small, unit_pow unit e⟩
  · have within : ¬ (2 ^ 32 ≤ e ∨ 2 ^ 24 < part.natAbs.size * e) := fun beyond =>
      bounded ⟨other, by rwa [Int.natAbs_natCast]⟩
    exact ⟨e, by rw [if_neg large, if_neg within], rfl⟩

/-- A power that is not refused has at most 2^24 binary digits. -/
theorem size_of_not_exceeds {part : ℤ} {e : ℕ} (bounded : ¬ Exceeds part e) :
    (part ^ e).natAbs.size ≤ 2 ^ 24 := by
  have one : ∀ n : ℕ, n ≤ 1 → n.size ≤ 2 ^ 24 := fun n small =>
    (Nat.size_le_size small).trans (by rw [Nat.size_one]; exact Nat.one_le_two_pow)
  rw [Int.natAbs_pow]
  rcases unit_or_large part with ⟨small, _⟩ | ⟨_, other⟩
  · exact one _ (pow_le_one₀ (Nat.zero_le _) small)
  · rcases Nat.eq_zero_or_pos e with rfl | positive
    · exact one _ (pow_zero _).le
    · refine (size_pow_le part.natAbs positive).trans (not_lt.1 fun beyond => bounded ⟨other, ?_⟩)
      rw [Int.natAbs_natCast]
      exact .inr beyond

/-! ## Powers of a fraction -/

theorem raise_parts (n m : ℤ) (e : ℕ) (combine : ℤ → ℤ → Except EvalError Number) :
    (do
      let up ← boundedExponent n e
      let down ← boundedExponent m e
      combine (Int.pow n up) (Int.pow m down)) =
      if Exceeds n e ∨ Exceeds m e then .error .tooLarge else combine (n ^ e) (m ^ e) := by
  by_cases first : Exceeds n e
  · rw [if_pos (.inl first), boundedExponent_of_exceeds first]
    rfl
  · obtain ⟨up, raised, samePower⟩ := boundedExponent_of_not_exceeds first
    by_cases second : Exceeds m e
    · rw [if_pos (.inr second), raised, boundedExponent_of_exceeds second]
      rfl
    · obtain ⟨down, lowered, samePower'⟩ := boundedExponent_of_not_exceeds second
      rw [if_neg (not_or.2 ⟨first, second⟩), raised, lowered, ← samePower, ← samePower']
      rfl

variable {b : Number} {q : ℚ}

theorem pow_of_terms {n : ℤ} {d : ℕ} (terms : b.terms? = some (n, d)) (k : ℤ) :
    b.pow (.integer k) = exactPower n d k := by
  cases b <;> cases terms <;> rfl

theorem exceeds_neg {part k : ℤ} : Exceeds part (-k) ↔ Exceeds part k := by
  rw [Exceeds, Exceeds, Int.natAbs_neg]

section

variable (denotes : b.Denotes q)

include denotes

theorem Denotes.pow_natCast (e : ℕ) :
    b.pow (.integer e) =
      if Exceeds q.num e ∨ Exceeds q.den e then .error .tooLarge
      else ofQuotient (q.num ^ e) (q.den ^ e) := by
  rw [pow_of_terms denotes.terms_eq, exactPower, if_neg (by omega)]
  exact raise_parts q.num q.den e ofQuotient

theorem Denotes.pow_neg_natCast {e : ℕ} (positive : 0 < e) :
    b.pow (.integer (-e)) =
      if q = 0 then .error .divisionByZero
      else if Exceeds q.num e ∨ Exceeds q.den e then .error .tooLarge
      else ofQuotient (q.den ^ e) (q.num ^ e) := by
  rw [pow_of_terms denotes.terms_eq, exactPower, if_pos (by omega)]
  by_cases zero : q = 0
  · rw [if_pos zero, if_pos (Rat.num_eq_zero.2 zero)]
    rfl
  · rw [if_neg zero, if_neg (mt Rat.num_eq_zero.1 zero), Int.neg_neg]
    exact raise_parts q.num q.den e fun numerator denominator => ofQuotient denominator numerator

theorem Denotes.pow_of_exceeds {k : ℤ} (defined : ¬ (q = 0 ∧ k < 0))
    (exceeds : Exceeds q.num k ∨ Exceeds q.den k) : b.pow (.integer k) = .error .tooLarge := by
  obtain ⟨e, rfl | rfl⟩ := k.eq_nat_or_neg
  · rw [denotes.pow_natCast, if_pos exceeds]
  · rw [exceeds_neg, exceeds_neg] at exceeds
    rcases Nat.eq_zero_or_pos e with rfl | positive
    · exact (denotes.pow_natCast 0).trans (if_pos exceeds)
    · rw [denotes.pow_neg_natCast positive, if_neg fun zero => defined ⟨zero, by omega⟩,
        if_pos exceeds]

theorem Denotes.pow_yields {k : ℤ} (defined : ¬ (q = 0 ∧ k < 0))
    (bounded : ¬ (Exceeds q.num k ∨ Exceeds q.den k)) : Yields (b.pow (.integer k)) (q ^ k) := by
  have nonneg (e : ℕ) (bounded : ¬ (Exceeds q.num e ∨ Exceeds q.den e)) :
      Yields (b.pow (.integer e)) (q ^ e) := by
    rw [denotes.pow_natCast, if_neg bounded]
    refine ofQuotient_yields (pow_ne_zero e (Int.natCast_ne_zero.2 q.den_ne_zero)) ?_
    rw [Int.cast_pow, Int.cast_pow, Int.cast_natCast, ← div_pow, Rat.num_div_den]
  obtain ⟨e, rfl | rfl⟩ := k.eq_nat_or_neg
  · rw [zpow_natCast]
    exact nonneg e bounded
  · rw [exceeds_neg, exceeds_neg] at bounded
    rw [zpow_neg, zpow_natCast]
    rcases Nat.eq_zero_or_pos e with rfl | positive
    · simpa using nonneg 0 bounded
    · -- The reciprocal: numerator and denominator change places.
      have nonzero : q ≠ 0 := fun zero => defined ⟨zero, by omega⟩
      rw [denotes.pow_neg_natCast positive, if_neg nonzero, if_neg bounded]
      refine ofQuotient_yields (pow_ne_zero e (Rat.num_ne_zero.2 nonzero)) ?_
      rw [Int.cast_pow, Int.cast_pow, Int.cast_natCast, ← div_pow, ← inv_pow, ← inv_div,
        Rat.num_div_den]

end

theorem size_terms_of_not_exceeds {k : ℤ} (bounded : ¬ (Exceeds q.num k ∨ Exceeds q.den k)) :
    (q ^ k).num.natAbs.size ≤ 2 ^ 24 ∧ (q ^ k).den.size ≤ 2 ^ 24 := by
  have nonneg (e : ℕ) (bounded : ¬ (Exceeds q.num e ∨ Exceeds q.den e)) :
      (q ^ e).num.natAbs.size ≤ 2 ^ 24 ∧ (q ^ e).den.size ≤ 2 ^ 24 := by
    obtain ⟨numerator, denominator⟩ := not_or.1 bounded
    have denominator := size_of_not_exceeds denominator
    rw [← Nat.cast_pow, Int.natAbs_natCast] at denominator
    rw [Rat.num_pow, Rat.den_pow]
    exact ⟨size_of_not_exceeds numerator, denominator⟩
  obtain ⟨e, rfl | rfl⟩ := k.eq_nat_or_neg
  · rw [zpow_natCast]
    exact nonneg e bounded
  · rw [exceeds_neg, exceeds_neg] at bounded
    obtain ⟨numerator, denominator⟩ := nonneg e bounded
    rw [zpow_neg, zpow_natCast]
    by_cases zero : q ^ e = 0
    · rw [zero, inv_zero]
      exact ⟨Nat.zero_le _, by rw [Rat.den_zero, Nat.size_one]; exact Nat.one_le_two_pow⟩
    · rw [Rat.num_inv, Rat.den_inv_of_ne_zero zero, Int.natAbs_mul,
        Int.natAbs_sign_of_ne_zero (Rat.num_ne_zero.2 zero), one_mul, Int.natAbs_natCast]
      exact ⟨denominator, numerator⟩

/-! ## Main result -/

/-- An exact base to an integer exponent fails for the base zero and a negative exponent, and
    otherwise exactly if numerator or denominator are refused; else it gives the reduced exact
    number for the power, and both of its terms have at most 2^24 binary digits. -/
theorem exact_powers {b : Number} {q : ℚ} (denotes : b.Denotes q) (k : ℤ) :
    b.terms? = some (q.num, q.den) ∧
    (b.pow (.integer k) = .error .divisionByZero ↔ q = 0 ∧ k < 0) ∧
    (b.pow (.integer k) = .error .tooLarge ↔
      ¬ (q = 0 ∧ k < 0) ∧ (Exceeds q.num k ∨ Exceeds q.den k)) ∧
    ((∃ r, b.pow (.integer k) = .ok r) ↔
      ¬ (q = 0 ∧ k < 0) ∧ ¬ (Exceeds q.num k ∨ Exceeds q.den k)) ∧
    ∀ r, b.pow (.integer k) = .ok r → r.Denotes (q ^ k) ∧
      r.terms? = some ((q ^ k).num, (q ^ k).den) ∧
      (q ^ k).num.natAbs.size ≤ 2 ^ 24 ∧ (q ^ k).den.size ≤ 2 ^ 24 := by
  refine ⟨denotes.terms_eq, ?_⟩
  by_cases undefined : q = 0 ∧ k < 0
  · have refused : b.pow (.integer k) = .error .divisionByZero := by
      obtain ⟨zero, negative⟩ := undefined
      obtain ⟨e, rfl⟩ := Int.exists_eq_neg_ofNat negative.le
      rw [denotes.pow_neg_natCast (by omega), if_pos zero]
    simp [refused, undefined]
  · by_cases exceeds : Exceeds q.num k ∨ Exceeds q.den k
    · have refused := denotes.pow_of_exceeds undefined exceeds
      simp [refused, undefined, exceeds]
    · obtain ⟨r, raised, power⟩ := denotes.pow_yields undefined exceeds
      refine ⟨by simp [raised, undefined], by simp [raised, exceeds],
        by simp [raised, undefined, exceeds], fun other same => ?_⟩
      cases raised.symm.trans same
      exact ⟨power, power.terms_eq, size_terms_of_not_exceeds exceeds⟩

/-- To the exponent -3 the number -2/3 is raised to -27/8; 2 has too many digits from the exponent
    2^23 + 1 on, and -1 has powers to all exponents. -/
theorem exact_powers_two_thirds :
    (fraction (-2) 3).pow (.integer (-3)) = .ok (fraction (-27) 8) ∧
      (integer 2).pow (.integer (2 ^ 23 + 1)) = .error .tooLarge ∧
      (integer (-1)).pow (.integer (10 ^ 30 + 1)) = .ok (integer (-1)) := by
  refine ⟨?_, ?_, ?_⟩
  · have base : (fraction (-2) 3).Denotes (-2 / 3) := ⟨⟨by decide, by decide⟩, by simp [value?]⟩
    have power : (fraction (-27) 8).Denotes ((-2 / 3) ^ (-3 : ℤ)) :=
      ⟨⟨by decide, by decide⟩, by norm_num [value?]⟩
    obtain ⟨terms, -, -, succeeds, denotes⟩ := exact_powers base (-3)
    obtain ⟨numerator, denominator⟩ := Prod.mk.inj (Option.some.inj terms)
    rw [← numerator, ← denominator] at succeeds
    obtain ⟨r, raised⟩ := succeeds.2 ⟨fun undefined => by norm_num at undefined, by decide⟩
    rw [raised, (denotes r raised).1.unique power]
  · obtain ⟨-, -, refused, -⟩ := exact_powers (denotes_integer 2) (2 ^ 23 + 1)
    exact refused.2 ⟨fun undefined => by norm_num at undefined, .inl (by decide)⟩
  · have power : (integer (-1)).Denotes (((-1 : ℤ) : ℚ) ^ (10 ^ 30 + 1 : ℤ)) := by
      have odd : Odd (10 ^ 30 + 1 : ℤ) := by decide
      rw [Int.cast_neg, Int.cast_one, odd.neg_one_zpow]
      exact_mod_cast denotes_integer (-1)
    obtain ⟨-, -, -, succeeds, denotes⟩ := exact_powers (denotes_integer (-1)) (10 ^ 30 + 1)
    obtain ⟨r, raised⟩ := succeeds.2 ⟨fun undefined => by norm_num at undefined, by decide⟩
    rw [raised, (denotes r raised).1.unique power]

end Number

end Abacus
