import Abacus.Number.Power
import Abacus.Proofs.Number.Rational
import Mathlib.Data.Nat.Sqrt
import Mathlib.Tactic.NormNum.IsSquare

/-!
# Exact square roots

Newton's iteration comes to the integer square root, so numerator and denominator are recognised
when they are squares.  A rational number in lowest terms is a square exactly if both of them are,
so the square root of an exact number is exact whenever it is rational.
-/

namespace Abacus

/-! ## Integer square roots -/

namespace Root

/-- A falling guess falls at most as often as its value says, so the steps suffice. -/
theorem improve_eq_iter (n : ℕ) {steps guess : ℕ} (enough : guess ≤ steps) :
    improve n steps guess = Nat.sqrt.iter n guess := by
  induction steps generalizing guess with
  | zero =>
    rw [Nat.le_zero.1 enough, Nat.sqrt.iter]
    rfl
  | succ steps inductionHypothesis =>
    rw [improve, Nat.sqrt.iter]
    by_cases falls : (guess + n / guess) / 2 < guess
    · rw [if_pos falls, dif_pos falls]
      exact inductionHypothesis (by omega)
    · rw [if_neg falls, dif_neg falls]

theorem floor_eq_sqrt (n : ℕ) : floor n = n.sqrt := by
  unfold floor Nat.sqrt
  by_cases small : n ≤ 1
  · rw [if_pos small, if_pos small]
  · rw [if_neg small, if_neg small, improve_eq_iter n le_rfl, Nat.shiftLeft_eq, one_mul]
    rfl

theorem ofSquare?_eq_some {n r : ℕ} : ofSquare? n = some r ↔ r * r = n := by
  simp only [ofSquare?, floor_eq_sqrt, Option.ite_none_right_eq_some, Option.some.injEq]
  constructor
  · rintro ⟨square, rfl⟩
    exact square
  · rintro rfl
    rw [Nat.sqrt_eq]
    exact ⟨rfl, rfl⟩

end Root

/-! ## Square roots of exact numbers -/

namespace Number

variable {a : Number} {p q : ℚ}

theorem Denotes.isNegative (denotes : a.Denotes q) : a.isNegative ↔ q < 0 := by
  rw [Number.isNegative, denotes.compare? (denotes_integer 0), decide_eq_true_eq,
    Option.some.injEq, compare_lt_iff_lt, Int.cast_zero]

theorem Denotes.sqrt_of_neg (denotes : a.Denotes q) (negative : q < 0) :
    a.sqrt = .error (.outsideDomain ("square root of negative value " ++ a.text)) :=
  if_pos (denotes.isNegative.2 negative)

theorem Denotes.sqrt_of_nonneg (denotes : a.Denotes q) (nonneg : 0 ≤ q) :
    a.sqrt = match (do
        let up ← Root.ofSquare? q.num.natAbs
        let down ← Root.ofSquare? q.den
        pure (up, down)) with
      | some (up, down) => ofQuotient up down
      | none => .ok (.float a.toFloat.sqrt) := by
  rw [Number.sqrt, if_neg (mt denotes.isNegative.1 (not_lt.2 nonneg)), denotes.terms_eq]
  rfl

theorem Denotes.sqrt_yields (denotes : a.Denotes q) (nonneg : 0 ≤ p) (square : p * p = q) :
    Yields a.sqrt p := by
  have up : Root.ofSquare? q.num.natAbs = some p.num.natAbs :=
    Root.ofSquare?_eq_some.2 (by rw [← square, Rat.mul_self_num, Int.natAbs_mul])
  have down : Root.ofSquare? q.den = some p.den :=
    Root.ofSquare?_eq_some.2 (by rw [← square, Rat.mul_self_den])
  rw [denotes.sqrt_of_nonneg (square ▸ mul_self_nonneg p), up, down]
  refine ofQuotient_yields (Int.natCast_ne_zero.2 p.den_ne_zero) ?_
  rw [Int.natAbs_of_nonneg (Rat.num_nonneg.2 nonneg), Int.cast_natCast, Rat.num_div_den]

theorem Denotes.sqrt_of_not_isSquare (denotes : a.Denotes q) (nonneg : 0 ≤ q)
    (irrational : ¬ IsSquare q) : a.sqrt = .ok (.float a.toFloat.sqrt) := by
  rw [denotes.sqrt_of_nonneg nonneg]
  cases up : Root.ofSquare? q.num.natAbs with
  | none => rfl
  | some n =>
    cases down : Root.ofSquare? q.den with
    | none => rfl
    | some d =>
      have numerator : q.num = n * n := by
        rw [← Int.natAbs_of_nonneg (Rat.num_nonneg.2 nonneg), ← Root.ofSquare?_eq_some.1 up,
          Nat.cast_mul]
      have denominator : q.den = d * d := (Root.ofSquare?_eq_some.1 down).symm
      exact absurd (Rat.isSquare_iff.2 ⟨⟨n, numerator⟩, ⟨d, denominator⟩⟩) irrational

/-- A negative number, the square of a rational number, or neither. -/
theorem Denotes.sqrt_cases (denotes : a.Denotes q) :
    (q < 0 ∧ a.sqrt = .error (.outsideDomain ("square root of negative value " ++ a.text))) ∨
    (∃ p, 0 ≤ p ∧ p * p = q ∧ Yields a.sqrt p) ∨
    (0 ≤ q ∧ ¬ IsSquare q ∧ a.sqrt = .ok (.float a.toFloat.sqrt)) := by
  rcases lt_or_ge q 0 with negative | nonneg
  · exact .inl ⟨negative, denotes.sqrt_of_neg negative⟩
  · by_cases square : IsSquare q
    · obtain ⟨p, rfl⟩ := square
      have root := abs_mul_abs_self p
      exact .inr (.inl ⟨|p|, abs_nonneg p, root, denotes.sqrt_yields (abs_nonneg p) root⟩)
    · exact .inr (.inr ⟨nonneg, square, denotes.sqrt_of_not_isSquare nonneg square⟩)

theorem Denotes.sqrt_eq_error_iff (denotes : a.Denotes q) {cause : EvalError} :
    a.sqrt = .error cause ↔
      q < 0 ∧ cause = .outsideDomain ("square root of negative value " ++ a.text) := by
  constructor
  · intro result
    rcases denotes.sqrt_cases with ⟨negative, refused⟩ | ⟨_, _, _, r, exact', _⟩ |
      ⟨_, _, approximate⟩
    · cases refused.symm.trans result
      exact ⟨negative, rfl⟩
    · cases exact'.symm.trans result
    · cases approximate.symm.trans result
  · rintro ⟨negative, rfl⟩
    exact denotes.sqrt_of_neg negative

theorem Denotes.yields_sqrt_iff (denotes : a.Denotes q) :
    Yields a.sqrt p ↔ 0 ≤ p ∧ p * p = q := by
  constructor
  · rintro ⟨r, result, root⟩
    rcases denotes.sqrt_cases with ⟨_, refused⟩ | ⟨_, nonneg, square, r', exact', root'⟩ |
      ⟨_, _, approximate⟩
    · cases refused.symm.trans result
    · cases exact'.symm.trans result
      cases root.value.symm.trans root'.value
      exact ⟨nonneg, square⟩
    · cases approximate.symm.trans result
      cases root.value
  · rintro ⟨nonneg, square⟩
    exact denotes.sqrt_yields nonneg square

theorem Denotes.sqrt_eq_float_iff (denotes : a.Denotes q) {x : Float} :
    a.sqrt = .ok (.float x) ↔ 0 ≤ q ∧ ¬ IsSquare q ∧ x = a.toFloat.sqrt := by
  constructor
  · intro result
    rcases denotes.sqrt_cases with ⟨_, refused⟩ | ⟨_, _, _, r, exact', root⟩ |
      ⟨nonneg, irrational, approximate⟩
    · cases refused.symm.trans result
    · cases exact'.symm.trans result
      cases root.value
    · cases approximate.symm.trans result
      exact ⟨nonneg, irrational, rfl⟩
  · rintro ⟨nonneg, irrational, rfl⟩
    exact denotes.sqrt_of_not_isSquare nonneg irrational

/-! ## Main result -/

/-- The square root of a negative exact number is refused.  Of any other it is the reduced exact
    number for the root that is not negative if there is a rational one, and a floating-point
    number if there is none. -/
theorem exact_roots {a : Number} {q : ℚ} (denotes : a.Denotes q) :
    (∀ cause, a.sqrt = .error cause ↔
      q < 0 ∧ cause = .outsideDomain ("square root of negative value " ++ a.text)) ∧
    ((∃ p, Yields a.sqrt p) ↔ IsSquare q) ∧
    (∀ p, Yields a.sqrt p ↔ 0 ≤ p ∧ p * p = q) ∧
    ∀ x, a.sqrt = .ok (.float x) ↔ 0 ≤ q ∧ ¬ IsSquare q ∧ x = a.toFloat.sqrt := by
  refine ⟨fun _ => denotes.sqrt_eq_error_iff, ⟨?_, ?_⟩, fun _ => denotes.yields_sqrt_iff,
    fun _ => denotes.sqrt_eq_float_iff⟩
  · rintro ⟨p, yields⟩
    exact ⟨p, (denotes.yields_sqrt_iff.1 yields).2.symm⟩
  · rintro ⟨p, rfl⟩
    exact ⟨|p|, denotes.yields_sqrt_iff.2 ⟨abs_nonneg p, abs_mul_abs_self p⟩⟩

/-- The root of 9/4 is 3/2, that of 2 is a floating-point number, and -4 has none. -/
theorem exact_roots_nine_quarters :
    (fraction 9 4).sqrt = .ok (fraction 3 2) ∧
      (integer 2).sqrt = .ok (.float (integer 2).toFloat.sqrt) ∧
      (integer (-4)).sqrt = .error (.outsideDomain "square root of negative value -4") := by
  refine ⟨?_, ?_, ?_⟩
  · have square : (fraction 9 4).Denotes (9 / 4) := ⟨⟨by decide, by decide⟩, by simp [value?]⟩
    have expected : (fraction 3 2).Denotes (3 / 2) := ⟨⟨by decide, by decide⟩, by simp [value?]⟩
    obtain ⟨-, -, roots, -⟩ := exact_roots square
    obtain ⟨r, exact', root⟩ := (roots (3 / 2)).2 (by norm_num)
    rw [exact', root.unique expected]
  · obtain ⟨-, -, -, floats⟩ := exact_roots (denotes_integer 2)
    exact (floats _).2 ⟨by norm_num, by norm_num, rfl⟩
  · obtain ⟨refused, -⟩ := exact_roots (denotes_integer (-4))
    exact (refused _).2 ⟨by norm_num, by decide⟩

end Number

end Abacus
