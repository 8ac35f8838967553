import Abacus.Proofs.Number.Conversion

/-!
# Comparing numbers of different kinds

Exact numbers are compared exactly, and all others as floating-point numbers, so three numbers may
be compared in two different ways.  An exact number that is converted may become equal to others,
but if it is rounded only once, it never changes sides.
-/

namespace Abacus.Number

open Binary64 (floatRank? compareFloat?_eq_some_iff converted_ofInt converted_div Converted)

/-- Whether a number is at most another by value. -/
def atMost (a b : Number) : Bool := (a.compare? b).any Ordering.isLE

/-- Whether a number is a floating-point number. -/
def isFloat : Number → Bool
  | .float _ => true
  | _ => false

/-- Whether a number is rounded at most once when it is converted to a floating-point number: the
    terms of a fraction are converted first, which leaves them as they are up to `2 ^ 53`. -/
def RoundedOnce : Number → Prop
  | .fraction n d => n.natAbs ≤ 2 ^ 53 ∧ d ≤ 2 ^ 53
  | _ => True

theorem isFloat_or_denotes {a : Number} (reduced : a.Reduced) : a.isFloat ∨ ∃ q, a.Denotes q := by
  cases a with
  | integer n => exact .inr (exists_denotes_iff.2 ⟨reduced, nofun⟩)
  | fraction n d => exact .inr (exists_denotes_iff.2 ⟨reduced, nofun⟩)
  | float x => exact .inl rfl

/-! ## Conversions -/

/-- The conversion of one number is at most that of another. -/
def Below (a b : Number) : Prop :=
  ∃ p q, floatRank? a.toFloat = some p ∧ floatRank? b.toFloat = some q ∧ p ≤ q

def Level (a b : Number) : Prop :=
  ∃ p, floatRank? a.toFloat = some p ∧ floatRank? b.toFloat = some p

section

variable {a b c : Number}

theorem Below.trans (left : Below a b) (right : Below b c) : Below a c := by
  obtain ⟨p, q, rank, rank', le⟩ := left
  obtain ⟨q', r, rank'', rank''', le'⟩ := right
  obtain rfl := Option.some.inj (rank'.symm.trans rank'')
  exact ⟨p, r, rank, rank''', le.trans le'⟩

theorem Below.antisymm (left : Below a b) (right : Below b a) : Level a b := by
  obtain ⟨p, q, rank, rank', le⟩ := left
  obtain ⟨q', p', rank'', rank''', le'⟩ := right
  obtain rfl := Option.some.inj (rank'.symm.trans rank'')
  obtain rfl := Option.some.inj (rank.symm.trans rank''')
  exact ⟨p, rank, le_antisymm le' le ▸ rank'⟩

theorem Level.trans (left : Level a b) (right : Level b c) : Level a c := by
  obtain ⟨p, rank, rank'⟩ := left
  obtain ⟨q, rank'', rank'''⟩ := right
  obtain rfl := Option.some.inj (rank'.symm.trans rank'')
  exact ⟨p, rank, rank'''⟩

theorem Denotes.converted {q : ℚ} (denotes : a.Denotes q) (once : a.RoundedOnce) :
    Converted q a.toFloat.toModel.unpack := by
  obtain ⟨reduced, value⟩ := denotes
  cases a with
  | integer n =>
    cases value
    exact converted_ofInt n
  | fraction n d =>
    cases value
    exact converted_div reduced.numerator_ne_zero (Nat.lt_trans Nat.one_pos reduced.1) once.1 once.2
  | float x => cases value

theorem Denotes.below {p q : ℚ} (left : a.Denotes p) (right : b.Denotes q) (once : a.RoundedOnce)
    (once' : b.RoundedOnce) (le : p ≤ q) : Below a b :=
  (left.converted once).mono (right.converted once') le

/-! ## Comparisons -/

theorem compare?_of_isFloat (float : a.isFloat ∨ b.isFloat) :
    a.compare? b = compareFloat? a.toFloat b.toFloat := by
  cases a <;> cases b <;> first | rfl | simp [isFloat] at float

theorem sameValue_iff_level (float : a.isFloat ∨ b.isFloat) : a.sameValue b ↔ Level a b := by
  rw [sameValue, decide_eq_true_iff, compare?_of_isFloat float, compareFloat?_eq_some_iff]
  constructor
  · rintro ⟨p, q, rank, rank', same⟩
    exact ⟨p, rank, compare_eq_iff_eq.1 same ▸ rank'⟩
  · rintro ⟨p, rank, rank'⟩
    exact ⟨p, p, rank, rank', compare_eq_iff_eq.2 rfl⟩

theorem atMost_iff_below (float : a.isFloat ∨ b.isFloat) : a.atMost b ↔ Below a b := by
  rw [atMost, Option.any_eq_true, compare?_of_isFloat float]
  simp only [compareFloat?_eq_some_iff]
  constructor
  · rintro ⟨_, ⟨p, q, rank, rank', rfl⟩, le⟩
    exact ⟨p, q, rank, rank', Ordering.isLE_iff_ne_gt.trans compare_le_iff_le |>.1 le⟩
  · rintro ⟨p, q, rank, rank', le⟩
    exact ⟨_, ⟨p, q, rank, rank', rfl⟩, Ordering.isLE_iff_ne_gt.trans compare_le_iff_le |>.2 le⟩

theorem Denotes.sameValue_iff {p q : ℚ} (left : a.Denotes p) (right : b.Denotes q) :
    a.sameValue b ↔ a = b := by
  rw [sameValue, decide_eq_true_iff, left.compare? right, Option.some.injEq, compare_eq_iff_eq,
    left.eq_iff right]

theorem Denotes.atMost_iff {p q : ℚ} (left : a.Denotes p) (right : b.Denotes q) :
    a.atMost b ↔ p ≤ q := by
  rw [atMost, left.compare? right, Option.any_some, Ordering.isLE_iff_ne_gt]
  exact compare_le_iff_le

/-! ## Three numbers -/

theorem sameValue_trans (ofLeft : a.Reduced) (ofMiddle : b.Reduced) (ofRight : c.Reduced)
    (shared : b.isFloat → a.isFloat ∨ c.isFloat) (left : a.sameValue b) (right : b.sameValue c) :
    a.sameValue c := by
  rcases isFloat_or_denotes ofMiddle with middle | ⟨q, middle⟩
  · rw [sameValue_iff_level (.inr middle)] at left
    rw [sameValue_iff_level (.inl middle)] at right
    exact (sameValue_iff_level (shared middle)).2 (left.trans right)
  · rcases isFloat_or_denotes ofLeft with outer | ⟨p, outer⟩
    · rcases isFloat_or_denotes ofRight with outer' | ⟨r, outer'⟩
      · rw [sameValue_iff_level (.inl outer)] at left
        rw [sameValue_iff_level (.inr outer')] at right
        exact (sameValue_iff_level (.inl outer)).2 (left.trans right)
      · exact (middle.sameValue_iff outer').1 right ▸ left
    · exact (outer.sameValue_iff middle).1 left ▸ right

theorem atMost_trans_of_isFloat (leftFloat : a.isFloat ∨ b.isFloat)
    (rightFloat : b.isFloat ∨ c.isFloat) (outerFloat : a.isFloat ∨ c.isFloat)
    (left : a.atMost b) (right : b.atMost c) : a.atMost c :=
  (atMost_iff_below outerFloat).2
    (((atMost_iff_below leftFloat).1 left).trans ((atMost_iff_below rightFloat).1 right))

/-- Unless just one of three numbers is a floating-point number, all comparisons among them are exact
    or none is. -/
theorem isFloat_of_countP (shared : [a, b, c].countP isFloat ≠ 1) :
    (¬a.isFloat ∧ ¬b.isFloat ∧ ¬c.isFloat) ∨
      (a.isFloat ∨ b.isFloat) ∧ (b.isFloat ∨ c.isFloat) ∧ (a.isFloat ∨ c.isFloat) := by
  revert shared
  simp only [List.countP_cons, List.countP_nil]
  generalize a.isFloat = first
  generalize b.isFloat = second
  generalize c.isFloat = third
  revert first second third
  decide

theorem atMost_trans (ofLeft : a.Reduced) (ofMiddle : b.Reduced) (ofRight : c.Reduced)
    (shared : [a, b, c].countP isFloat ≠ 1) (left : a.atMost b) (right : b.atMost c) :
    a.atMost c := by
  rcases isFloat_of_countP shared with ⟨first, second, third⟩ | ⟨first, second, third⟩
  · obtain ⟨p, first⟩ := (isFloat_or_denotes ofLeft).resolve_left first
    obtain ⟨q, second⟩ := (isFloat_or_denotes ofMiddle).resolve_left second
    obtain ⟨r, third⟩ := (isFloat_or_denotes ofRight).resolve_left third
    rw [first.atMost_iff second] at left
    rw [second.atMost_iff third] at right
    exact (first.atMost_iff third).2 (left.trans right)
  · exact atMost_trans_of_isFloat first second third left right

/-- Numbers that are rounded at most once are in order, or the one in the middle is a
    floating-point number that both of the others are converted to. -/
theorem atMost_trans_of_roundedOnce (ofLeft : a.Reduced) (ofMiddle : b.Reduced)
    (ofRight : c.Reduced) (once : a.RoundedOnce) (once' : b.RoundedOnce) (once'' : c.RoundedOnce)
    (left : a.atMost b) (right : b.atMost c) :
    a.atMost c ∨ b.isFloat ∧ a.sameValue b ∧ b.sameValue c := by
  rcases isFloat_or_denotes ofMiddle with middle | ⟨q, middle⟩
  · rcases isFloat_or_denotes ofLeft with outer | ⟨p, outer⟩
    · exact .inl (atMost_trans_of_isFloat (.inl outer) (.inl middle) (.inl outer) left right)
    rcases isFloat_or_denotes ofRight with outer' | ⟨r, outer'⟩
    · exact .inl (atMost_trans_of_isFloat (.inr middle) (.inl middle) (.inr outer') left right)
    rcases le_total p r with le | ge
    · exact .inl ((outer.atMost_iff outer').2 le)
    · -- The conversions are in both orders.
      have left' := (atMost_iff_below (.inr middle)).1 left
      have right' := (atMost_iff_below (.inl middle)).1 right
      have reversed := outer'.below outer once'' once ge
      exact .inr ⟨middle,
        (sameValue_iff_level (.inr middle)).2 (left'.antisymm (right'.trans reversed)),
        (sameValue_iff_level (.inl middle)).2 (right'.antisymm (reversed.trans left'))⟩
  · left
    rcases isFloat_or_denotes ofLeft with outer | ⟨p, outer⟩
    · have left' := (atMost_iff_below (.inl outer)).1 left
      rcases isFloat_or_denotes ofRight with outer' | ⟨r, outer'⟩
      · exact atMost_trans_of_isFloat (.inl outer) (.inr outer') (.inl outer) left right
      · have right' := middle.below outer' once' once'' ((middle.atMost_iff outer').1 right)
        exact (atMost_iff_below (.inl outer)).2 (left'.trans right')
    · have le := (outer.atMost_iff middle).1 left
      rcases isFloat_or_denotes ofRight with outer' | ⟨r, outer'⟩
      · have right' := (atMost_iff_below (.inr outer')).1 right
        exact (atMost_iff_below (.inr outer')).2 ((outer.below middle once once' le).trans right')
      · exact (outer.atMost_iff outer').2 (le.trans ((middle.atMost_iff outer').1 right))

end

end Abacus.Number
