import Abacus.Proofs.Number.FloatOrder
import Abacus.Proofs.Number.Rational
import Abacus.Proofs.Number.Rounding

/-!
# Exact numbers as floating-point numbers

Integers, and fractions whose terms are converted without loss, are rounded once when they are
converted.  Such conversions never reverse the order of two numbers.
-/

namespace Abacus.Binary64

open Float.Model (UnpackedFloat Format totalExponent)
open Float.Model.UnpackedFloat

/-! ## Numbers without loss -/

theorem Normal.rounded {x : ℚ} {m : ℕ} {e : ℤ} (normal : Normal m e) (value : x = m * 2 ^ e) :
    Rounded x m e := by
  refine ⟨normal, m, 1, e, ⟨Nat.one_pos, by simpa using normal.lower, by simpa using normal.upper,
    by simpa using value⟩, ?_⟩
  have whole := nearest_mul m Nat.one_pos
  rw [Nat.mul_one] at whole
  rw [whole]

theorem Rounded.unique {x : ℚ} {m n : ℕ} {e f : ℤ} (rounded : Rounded x m e) (normal : Normal n f)
    (value : x = n * 2 ^ f) : m = n ∧ e = f := by
  have itself := normal.rounded value
  have below := rounded.place_mono itself (le_refl x)
  have above := itself.place_mono rounded (le_refl x)
  have := normal.lower
  have := normal.upper
  have := rounded.normal.lower
  have := rounded.normal.upper
  omega

theorem roundWithAccuracy_exact (s : Sign) {n : ℕ} {e : ℤ} {k : ℕ} (digits : n.log2 = 52 + k)
    (bound : -1074 ≤ e + k) :
    ∃ m' e', ∃ rounded : Rounded (n * 2 ^ e) m' e',
      roundWithAccuracy Format.binary64 s n e .exact = .finite s m' e' rounded.normal.positive := by
  have positive : 0 < n := Nat.pos_of_ne_zero fun zero => by
    rw [zero, Nat.log2_zero] at digits
    omega
  obtain ⟨m, f, rounded, same⟩ := roundWithAccuracy_eq s (n := n) (e := e) Nat.one_pos positive
    (by rwa [Nat.div_one]) bound
  have value : (n / (1 : ℕ) * 2 ^ e : ℚ) = n * 2 ^ e := by rw [Nat.cast_one, div_one]
  rw [Nat.div_one, Nat.mod_one] at same
  exact ⟨m, f, value ▸ rounded, same⟩

theorem log2_mul_two_pow {m : ℕ} (nonzero : m ≠ 0) (k : ℕ) : (m * 2 ^ k).log2 = m.log2 + k := by
  induction k with
  | zero => rw [pow_zero, Nat.mul_one, Nat.add_zero]
  | succ k inductionHypothesis =>
    rw [Nat.pow_succ', Nat.mul_left_comm, Nat.log2_two_mul (by positivity), inductionHypothesis,
      Nat.add_assoc]

theorem roundWithAccuracy_mul (s : Sign) {m : ℕ} {e : ℤ} (normal : Normal m e) (k : ℕ) :
    roundWithAccuracy Format.binary64 s (m * 2 ^ k) (e - k) .exact =
      .finite s m e normal.positive := by
  have digits : (m * 2 ^ k).log2 = 52 + k := by
    rw [log2_mul_two_pow normal.positive.ne', normal.log2_eq]
  have value : ((m * 2 ^ k : ℕ) * 2 ^ (e - k) : ℚ) = m * 2 ^ e := by
    rw [zpow_sub₀ two_ne_zero, zpow_natCast]
    push_cast
    field_simp
  have bound := normal.bound
  obtain ⟨n, f, rounded, same⟩ := roundWithAccuracy_exact s digits (by omega : -1074 ≤ e - k + k)
  obtain ⟨rfl, rfl⟩ := rounded.unique normal value
  exact same

theorem normal_of_small {n : ℕ} (positive : 0 < n) (small : n < 2 ^ 53) :
    Normal (n * 2 ^ (52 - n.log2)) (n.log2 - 52) := by
  have digits : n.log2 < 53 := (Nat.log2_lt positive.ne').2 small
  refine ⟨?_, ?_, by omega⟩
  · calc 2 ^ 52 = 2 ^ n.log2 * 2 ^ (52 - n.log2) := by rw [← Nat.pow_add]; congr 1; omega
      _ ≤ n * 2 ^ (52 - n.log2) :=
        Nat.mul_le_mul_right _ ((Nat.le_log2 positive.ne').1 (Nat.le_refl _))
  · calc n * 2 ^ (52 - n.log2) < 2 ^ (n.log2 + 1) * 2 ^ (52 - n.log2) :=
          Nat.mul_lt_mul_of_pos_right ((Nat.log2_lt positive.ne').1 (by omega)) (by positivity)
      _ = 2 ^ 53 := by rw [← Nat.pow_add]; congr 1; omega

theorem value_of_small {n : ℕ} (positive : 0 < n) (small : n < 2 ^ 53) :
    (n : ℚ) = (n * 2 ^ (52 - n.log2) : ℕ) * 2 ^ ((n.log2 : ℤ) - 52) := by
  have digits : n.log2 < 53 := (Nat.log2_lt positive.ne').2 small
  have exponent : (n.log2 : ℤ) - 52 = -(52 - n.log2 : ℕ) := by omega
  rw [exponent, zpow_neg, zpow_natCast]
  push_cast
  field_simp

theorem Rounded.exact {n m : ℕ} {e : ℤ} (rounded : Rounded n m e) (small : n ≤ 2 ^ 53) :
    (n : ℚ) = m * 2 ^ e ∧ -52 ≤ e ∧ e ≤ 1 := by
  have positive : 0 < n := by exact_mod_cast rounded.pos
  rcases Nat.lt_or_eq_of_le small with less | rfl
  · have digits : n.log2 < 53 := (Nat.log2_lt positive.ne').2 less
    have value := value_of_small positive less
    obtain ⟨rfl, rfl⟩ := rounded.unique (normal_of_small positive less) value
    exact ⟨value, by omega, by omega⟩
  · have value : ((2 ^ 53 : ℕ) : ℚ) = (2 ^ 52 : ℕ) * 2 ^ (1 : ℤ) := by norm_num
    obtain ⟨rfl, rfl⟩ := rounded.unique ⟨by decide, by decide, by decide⟩ value
    exact ⟨value, by omega, by omega⟩

/-! ## Results of operations -/

/-- A number with 53 digits as a floating-point number, which is infinite if it is too large. -/
def bounded (s : Sign) (m : ℕ) (e : ℤ) (positive : 0 < m) : UnpackedFloat :=
  if e < 972 then .finite s m e positive else .infinity s

theorem unpack_pack_normal (s : Sign) {m : ℕ} {e : ℤ} (normal : Normal m e) :
    (Float.Model.pack (.finite s m e normal.positive)).unpack = bounded s m e normal.positive :=
  unpack_pack_finite s normal.positive normal.lower normal.upper normal.bound

theorem unpack_pack_bounded (s : Sign) {m : ℕ} {e : ℤ} (normal : Normal m e) :
    (Float.Model.pack (bounded s m e normal.positive)).unpack = bounded s m e normal.positive := by
  rw [bounded]
  split
  · rw [unpack_pack_normal s normal, bounded, if_pos ‹_›]
  · exact unpack_pack_infinity s

theorem neg_neg_unpacked (u : UnpackedFloat) : u.neg.neg = u := by
  rcases u with (_ | _) | _ | (_ | _) | ⟨_ | _, _, _, _⟩ <;> rfl

theorem bounded_neg {m : ℕ} (e : ℤ) (positive : 0 < m) :
    (bounded .positive m e positive).neg = bounded .negative m e positive := by
  unfold bounded
  split <;> rfl

/-- The floating-point numbers that a rational may be converted to: the nearest one. -/
inductive Converted : ℚ → UnpackedFloat → Prop
  | zero (s : Sign) : Converted 0 (.zero s)
  | positive {x : ℚ} {m : ℕ} {e : ℤ} (rounded : Rounded x m e) :
      Converted x (bounded .positive m e rounded.normal.positive)
  | negative {x : ℚ} {m : ℕ} {e : ℤ} (rounded : Rounded x m e) :
      Converted (-x) (bounded .negative m e rounded.normal.positive)

theorem Converted.neg {x : ℚ} {u : UnpackedFloat} (converted : Converted x u) :
    Converted (-x) u.neg := by
  cases converted with
  | zero s =>
    rw [neg_zero]
    exact .zero (-s)
  | positive rounded =>
    rw [bounded_neg]
    exact .negative rounded
  | negative rounded =>
    rw [neg_neg, ← bounded_neg, neg_neg_unpacked]
    exact .positive rounded

theorem Converted.unpack_pack {x : ℚ} {u : UnpackedFloat} (converted : Converted x u) :
    (Float.Model.pack u).unpack = u := by
  cases converted with
  | zero s => exact unpack_pack_zero s
  | positive rounded => exact unpack_pack_bounded _ rounded.normal
  | negative rounded => exact unpack_pack_bounded _ rounded.normal

/-! ## Integers -/

theorem unpack_ofUInt64 {n : ℕ} (positive : 0 < n) (small : n < 2 ^ 53) :
    (Float.Model.ofUInt64 n.toUInt64).unpack =
      .finite .positive _ (n.log2 - 52) (normal_of_small positive small).positive := by
  have normal := normal_of_small positive small
  have digits : n.log2 < 53 := (Nat.log2_lt positive.ne').2 small
  have target : Format.binary64.targetExponent (totalExponent n 0) = n.log2 - 52 :=
    targetExponent_eq (by omega) (by omega)
  have rounded : round Format.binary64 .positive n 0 =
      .finite .positive _ (n.log2 - 52) normal.positive := by
    have amount : (0 - ((n.log2 : ℤ) - 52)).toNat = 52 - n.log2 := by omega
    have exponent : (0 : ℤ) - (52 - n.log2 : ℕ) = n.log2 - 52 := by omega
    rw [UnpackedFloat.round, target, decreaseExponent, amount]
    dsimp only
    rw [exponent, Nat.shiftLeft_eq]
    have kept := roundWithAccuracy_mul .positive normal 0
    rwa [pow_zero, Nat.mul_one, Nat.cast_zero, sub_zero] at kept
  change (Float.Model.pack
    (UnpackedFloat.normalize Format.binary64 ((n.toUInt64.toNat : ℕ) : ℤ) 0 .positive)).unpack = _
  rw [UInt64.toNat_ofNat_of_lt' (Nat.lt_trans small (by decide)),
    UnpackedFloat.normalize, compare_gt_iff_gt.2 (by omega)]
  dsimp only
  rw [Int.toNat_natCast, rounded, unpack_pack_normal _ normal, bounded, if_pos (by omega)]

theorem ofScientific_zero {n : ℕ} (positive : 0 < n) :
    UnpackedFloat.ofScientific Format.binary64 n 0 =
      roundWithAccuracy Format.binary64 .positive (n * 2 ^ 53) (-53) .exact := by
  have bits : (2 : ℤ) ^ Format.binary64.exponentBits = 2048 := rfl
  have width : Format.binary64.mantissaBits = 53 := rfl
  unfold UnpackedFloat.ofScientific
  rw [dif_neg positive.ne', if_neg (by rw [bits]; omega), if_neg (by rw [bits]; omega),
    if_pos (Int.le_refl 0), UnpackedFloat.mul]
  simp only [width, Nat.shiftLeft_eq, Int.toNat_zero, pow_zero, Nat.mul_one]
  rfl

theorem converted_ofNat (n : ℕ) : Converted n (Float.ofNat n).toModel.unpack := by
  rcases Nat.eq_zero_or_pos n with rfl | positive
  · exact .zero .positive
  change Converted n (Float.ofScientific n false 0).toModel.unpack
  unfold Float.ofScientific
  by_cases small : n < 2 ^ 53
  · rw [dif_pos ⟨small, by omega⟩]
    have normal := normal_of_small positive small
    have one : (Float.ofBits 0x3FF0000000000000).toModel.unpack =
        .finite .positive (2 ^ 52) (-52) (by positivity) := rfl
    change Converted n (Float.Model.pack (UnpackedFloat.mul Format.binary64
      (Float.Model.ofUInt64 n.toUInt64).unpack
      (Float.ofBits 0x3FF0000000000000).toModel.unpack)).unpack
    rw [unpack_ofUInt64 positive small, one]
    change Converted n (Float.Model.pack (roundWithAccuracy Format.binary64 .positive
      (n * 2 ^ (52 - n.log2) * 2 ^ 52) (n.log2 - 52 - (52 : ℕ)) .exact)).unpack
    rw [roundWithAccuracy_mul .positive normal 52, unpack_pack_normal _ normal]
    exact .positive (normal.rounded (value_of_small positive small))
  · rw [dif_neg (fun both => small both.1)]
    have digits : (n * 2 ^ 53).log2 = 52 + (n.log2 + 1) := by
      rw [log2_mul_two_pow positive.ne']
      omega
    obtain ⟨m, e, rounded, same⟩ := roundWithAccuracy_exact .positive (e := -53) digits (by omega)
    have value : ((n * 2 ^ 53 : ℕ) * 2 ^ (-53 : ℤ) : ℚ) = n := by
      push_cast
      norm_num
      ring
    rw [value] at rounded
    change Converted n (Float.Model.pack (UnpackedFloat.ofScientific Format.binary64 n 0)).unpack
    rw [ofScientific_zero positive, same, unpack_pack_normal _ rounded.normal]
    exact .positive rounded

theorem converted_ofInt (n : ℤ) : Converted n (Binary64.ofInt n).toModel.unpack := by
  cases n with
  | ofNat n => exact_mod_cast converted_ofNat n
  | negSucc n =>
    have negated := (converted_ofNat (n + 1)).neg
    change Converted _ (Float.Model.pack (Float.ofNat (n + 1)).toModel.unpack.neg).unpack
    rw [negated.unpack_pack, Int.cast_negSucc]
    exact negated

/-! ## Fractions -/

theorem exact_ofInt {n : ℤ} (nonzero : n ≠ 0) (small : n.natAbs ≤ 2 ^ 53) :
    ∃ s m e, ∃ normal : Normal m e, (n : ℚ) = (s.apply m : ℤ) * 2 ^ e ∧ (-52 ≤ e ∧ e ≤ 1) ∧
      (ofInt n).toModel.unpack = .finite s m e normal.positive := by
  have converted := converted_ofInt n
  generalize unpacked : (ofInt n).toModel.unpack = u at converted
  generalize value : (n : ℚ) = x at converted
  cases converted with
  | zero s => exact absurd (by exact_mod_cast value) nonzero
  | @positive x m e rounded =>
    obtain ⟨n, rfl⟩ : ∃ k : ℕ, n = k := ⟨n.toNat, by
      have : (0 : ℚ) < n := value ▸ rounded.pos
      have : 0 < n := by exact_mod_cast this
      omega⟩
    rw [← value, Int.cast_natCast] at rounded
    obtain ⟨exact', bounds⟩ := rounded.exact small
    refine ⟨.positive, m, e, rounded.normal, ?_, bounds, ?_⟩
    · rw [← value]
      exact exact'
    · rw [bounded, if_pos (by omega)]
  | @negative x m e rounded =>
    obtain ⟨n, rfl⟩ : ∃ k : ℕ, n = -k := ⟨n.natAbs, by
      have : (n : ℚ) < 0 := by linarith [rounded.pos]
      have : n < 0 := by exact_mod_cast this
      omega⟩
    have value' : x = n := by
      push_cast at value
      linarith
    rw [value'] at rounded
    obtain ⟨exact', bounds⟩ := rounded.exact (by omega)
    refine ⟨.negative, m, e, rounded.normal, ?_, bounds, ?_⟩
    · rw [value', exact']
      simp [Sign.apply]
    · rw [bounded, if_pos (by omega)]

theorem div_eq (s : Sign) {m m' : ℕ} {e e' : ℤ} (left : Normal m e) (right : Normal m' e')
    (near : -1000 ≤ e - e') :
    ∃ n f, ∃ rounded : Rounded (m * 2 ^ e / (m' * 2 ^ e')) n f,
      UnpackedFloat.div Format.binary64 (.finite s m e left.positive)
        (.finite .positive m' e' right.positive) = .finite s n f rounded.normal.positive := by
  have positive := right.positive
  have sign : s / .positive = s := by cases s <;> rfl
  have target : min (e - e')
      (Format.binary64.targetExponent (totalExponent m e - totalExponent m' e')) = e - e' - 53 := by
    have least : Format.binary64.minExponent = -1074 := rfl
    have width : Format.binary64.mantissaBits = 53 := rfl
    unfold Format.targetExponent totalExponent
    rw [least, width, left.log2_eq, right.log2_eq]
    omega
  have amount : (e - e' - (e - e' - 53)).toNat = 53 := by omega
  have least : 2 ^ 52 ≤ m * 2 ^ 53 / m' := by
    rw [Nat.le_div_iff_mul_le positive]
    have := left.lower
    have := right.upper
    omega
  have most : m * 2 ^ 53 / m' < 2 ^ 54 := by
    rw [Nat.div_lt_iff_lt_mul positive]
    have := left.upper
    have := right.lower
    omega
  obtain ⟨k, digits⟩ := Nat.exists_eq_add_of_le ((Nat.le_log2 (by omega)).2 least)
  obtain ⟨n, f, rounded, same⟩ := roundWithAccuracy_eq s (e := e - e' - 53) positive (by
    have := left.lower
    have := right.upper
    omega) digits (by omega)
  have value : ((m * 2 ^ 53 : ℕ) / m' * 2 ^ (e - e' - 53) : ℚ) = m * 2 ^ e / (m' * 2 ^ e') := by
    have : (m' : ℚ) ≠ 0 := by exact_mod_cast positive.ne'
    rw [zpow_sub₀ two_ne_zero, zpow_sub₀ two_ne_zero]
    push_cast
    field_simp
  refine ⟨n, f, value ▸ rounded, ?_⟩
  unfold UnpackedFloat.div divCore
  simp only [target, amount, Nat.shiftLeft_eq, sign]
  exact same

/-- A fraction with terms up to `2 ^ 53` is converted to the nearest floating-point number. -/
theorem converted_div {n : ℤ} {d : ℕ} (nonzero : n ≠ 0) (positive : 0 < d)
    (small : n.natAbs ≤ 2 ^ 53) (small' : d ≤ 2 ^ 53) :
    Converted (n / d) (ofInt n / ofInt d).toModel.unpack := by
  obtain ⟨s, m, e, normal, value, bounds, unpacked⟩ := exact_ofInt nonzero small
  obtain ⟨s', m', e', normal', value', bounds', unpacked'⟩ :=
    exact_ofInt (n := d) (by omega) (by omega)
  rw [Int.cast_natCast] at value'
  cases s' with
  | negative =>
    have : (0 : ℚ) < d := by exact_mod_cast positive
    have : (0 : ℚ) ≤ m' * 2 ^ e' := by positivity
    simp only [Sign.apply] at value'
    push_cast at value'
    linarith
  | positive =>
    obtain ⟨k, f, rounded, same⟩ := div_eq s normal normal' (by omega)
    change Converted _ (Float.Model.pack (UnpackedFloat.div Format.binary64
      (ofInt n).toModel.unpack (ofInt d).toModel.unpack)).unpack
    rw [unpacked, unpacked', same, unpack_pack_normal _ rounded.normal, value, value']
    cases s with
    | positive => exact .positive rounded
    | negative =>
      have sign : ((Sign.negative.apply m : ℤ) * 2 ^ e / ((Sign.positive.apply m' : ℤ) * 2 ^ e') : ℚ) =
          -(m * 2 ^ e / (m' * 2 ^ e')) := by
        simp only [Sign.apply]
        push_cast
        ring
      rw [sign]
      exact .negative rounded

/-! ## Order -/

theorem rank?_neg (u : UnpackedFloat) : rank? u.neg = (rank? u).map (- ·) := by
  rcases u with (_ | _) | _ | _ | ⟨_ | _, m, e, _⟩
  case finite.negative =>
    change some (toLex (1, toLex (e, (m : ℤ)))) = some (toLex (- -1, toLex (- -e, - -(m : ℤ))))
    simp only [neg_neg]
  all_goals rfl

theorem rank?_bounded_pos {m : ℕ} (e : ℤ) (positive : 0 < m) :
    ∃ p, rank? (bounded .positive m e positive) = some p ∧ 0 < p := by
  unfold bounded
  split
  · exact ⟨_, rfl, Prod.Lex.toLex_lt_toLex.2 (Or.inl (show (0 : ℤ) < 1 by decide))⟩
  · exact ⟨_, rfl, Prod.Lex.toLex_lt_toLex.2 (Or.inl (show (0 : ℤ) < 2 by decide))⟩

/-- The order of floating-point numbers goes by the places of numbers with 53 digits. -/
theorem rank?_bounded_mono {m m' : ℕ} {e e' : ℤ} (normal : Normal m e) (normal' : Normal m' e')
    (le : e * 2 ^ 52 + m ≤ e' * 2 ^ 52 + (m' : ℤ)) :
    ∃ p q, rank? (bounded .positive m e normal.positive) = some p ∧
      rank? (bounded .positive m' e' normal'.positive) = some q ∧ p ≤ q := by
  have := normal.lower
  have := normal.upper
  have := normal'.lower
  have := normal'.upper
  have exponents : e ≤ e' := by omega
  unfold bounded
  by_cases large : e' < 972
  · rw [if_pos large, if_pos (by omega)]
    refine ⟨_, _, rfl, rfl, ?_⟩
    simp only [Prod.Lex.toLex_le_toLex, true_and]
    omega
  · rw [if_neg large]
    by_cases small : e < 972
    · rw [if_pos small]
      refine ⟨_, _, rfl, rfl, le_of_lt (Prod.Lex.toLex_lt_toLex.2 (Or.inl ?_))⟩
      exact show (1 : ℤ) < 2 by decide
    · rw [if_neg small]
      exact ⟨_, _, rfl, rfl, le_refl _⟩

theorem Converted.rank {x : ℚ} {u : UnpackedFloat} (converted : Converted x u) :
    ∃ p, rank? u = some p ∧ (0 ≤ x → 0 ≤ p) ∧ (x ≤ 0 → p ≤ 0) := by
  cases converted with
  | zero s => exact ⟨0, rfl, fun _ => le_refl _, fun _ => le_refl _⟩
  | @positive x m e rounded =>
    obtain ⟨p, rank, positive⟩ := rank?_bounded_pos e rounded.normal.positive
    exact ⟨p, rank, fun _ => positive.le, fun negative => absurd rounded.pos negative.not_gt⟩
  | @negative x m e rounded =>
    obtain ⟨p, rank, positive⟩ := rank?_bounded_pos e rounded.normal.positive
    refine ⟨-p, by rw [← bounded_neg, rank?_neg, rank]; rfl, fun nonneg => ?_, fun _ => ?_⟩
    · exact absurd rounded.pos (by linarith)
    · exact neg_nonpos_of_nonneg positive.le

variable {x y : ℚ} {u v : UnpackedFloat}

theorem Converted.mono_of_pos (left : Converted x u) (right : Converted y v) (positive : 0 < x)
    (le : x ≤ y) : ∃ p q, rank? u = some p ∧ rank? v = some q ∧ p ≤ q := by
  cases left with
  | zero s => exact absurd positive (lt_irrefl 0)
  | negative rounded => exact absurd rounded.pos (by linarith)
  | positive rounded =>
    cases right with
    | zero s => exact absurd positive (by linarith)
    | negative rounded' => exact absurd rounded'.pos (by linarith)
    | positive rounded' =>
      exact rank?_bounded_mono rounded.normal rounded'.normal (rounded.place_mono rounded' le)

/-- Conversion never reverses the order of two numbers. -/
theorem Converted.mono (left : Converted x u) (right : Converted y v) (le : x ≤ y) :
    ∃ p q, rank? u = some p ∧ rank? v = some q ∧ p ≤ q := by
  rcases lt_or_ge 0 x with positive | nonpos
  · exact left.mono_of_pos right positive le
  · rcases lt_or_ge y 0 with negative | nonneg
    · -- Two negative numbers have the opposite order of their absolute values.
      obtain ⟨q, p, rank, rank', order⟩ :=
        right.neg.mono_of_pos left.neg (neg_pos_of_neg negative) (neg_le_neg le)
      refine ⟨-p, -q, ?_, ?_, neg_le_neg order⟩
      · rw [← neg_neg_unpacked u, rank?_neg, rank']
        rfl
      · rw [← neg_neg_unpacked v, rank?_neg, rank]
        rfl
    · obtain ⟨p, rank, -, below⟩ := left.rank
      obtain ⟨q, rank', above, -⟩ := right.rank
      exact ⟨p, q, rank, rank', (below nonpos).trans (above nonneg)⟩

end Abacus.Binary64
