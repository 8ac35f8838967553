import Abacus.Text.Blank

/-!
# Squeezed texts

In a squeezed text every run of white space is a single space.  Texts that differ only in what white
space stands in them are those that are squeezed to the same text.  Reversing and trimming a text
commute with squeezing it.
-/

namespace Abacus

namespace Text

/-- Texts that differ only in what white space stands where there is any. -/
inductive Respaced : List Char → List Char → Prop where
  | nil : Respaced [] []
  | char (c : Char) {text text' : List Char} : Respaced text text' →
      Respaced (c :: text) (c :: text')
  | gap {space space' text text' : List Char} : allBlank space → space ≠ [] → allBlank space' →
      space' ≠ [] → Respaced text text' → Respaced (space ++ text) (space' ++ text')

/-- The text with one space for each run of white space; `gap` says whether a space for the run that
    it may start with stands in front of it. -/
def squeezedFrom : (gap : Bool) → List Char → List Char
  | _, [] => []
  | gap, c :: text =>
    if isBlank c then (if gap then [] else [' ']) ++ squeezedFrom true text
    else c :: squeezedFrom false text

abbrev squeezed (text : List Char) : List Char := squeezedFrom false text

def gapBehind : (gap : Bool) → List Char → Bool
  | gap, [] => gap
  | _, c :: text => gapBehind (isBlank c) text

variable {gap : Bool} {c : Char} {text rest : List Char}

theorem ne_of_isBlank {c d : Char} (blank : isBlank c = true) (filled : isBlank d = false) :
    c ≠ d := by
  rintro rfl
  exact Bool.noConfusion (blank.symm.trans filled)

theorem squeezedFrom_blank (blank : isBlank c) :
    squeezedFrom gap (c :: text) = (if gap then [] else [' ']) ++ squeezedFrom true text :=
  if_pos blank

theorem squeezedFrom_char (filled : isBlank c = false) :
    squeezedFrom gap (c :: text) = c :: squeezedFrom false text :=
  if_neg (Bool.eq_false_iff.1 filled)

theorem squeezed_blank (blank : isBlank c) :
    squeezed (c :: text) = ' ' :: squeezedFrom true text :=
  squeezedFrom_blank blank

theorem squeezed_char (filled : isBlank c = false) :
    squeezed (c :: text) = c :: squeezed text :=
  squeezedFrom_char filled

@[simp] theorem gapBehind_nil : gapBehind gap [] = gap := rfl

@[simp] theorem gapBehind_cons : gapBehind gap (c :: text) = gapBehind (isBlank c) text := rfl

theorem gapBehind_append : gapBehind gap (text ++ rest) = gapBehind (gapBehind gap text) rest := by
  induction text generalizing gap with
  | nil => rfl
  | cons c text inductionHypothesis =>
    rw [List.cons_append, gapBehind_cons, gapBehind_cons, inductionHypothesis]

theorem squeezedFrom_append (gap : Bool) (text rest : List Char) :
    squeezedFrom gap (text ++ rest) =
      squeezedFrom gap text ++ squeezedFrom (gapBehind gap text) rest := by
  induction text generalizing gap with
  | nil => rfl
  | cons c text inductionHypothesis =>
    rw [List.cons_append, gapBehind_cons]
    cases blank : isBlank c with
    | true =>
      rw [squeezedFrom_blank blank, squeezedFrom_blank blank, inductionHypothesis,
        List.append_assoc]
    | false =>
      rw [squeezedFrom_char blank, squeezedFrom_char blank, inductionHypothesis, List.cons_append]

theorem squeezed_append_of_filled (filled : ∀ c ∈ text, isBlank c = false) (rest : List Char) :
    squeezed (text ++ rest) = text ++ squeezed rest := by
  induction text with
  | nil => rfl
  | cons c text inductionHypothesis =>
    rw [List.forall_mem_cons] at filled
    rw [List.cons_append, squeezed_char filled.1, inductionHypothesis filled.2,
      List.cons_append]

theorem squeezed_of_filled (filled : ∀ c ∈ text, isBlank c = false) : squeezed text = text := by
  rw [← List.append_nil text, squeezed_append_of_filled filled]
  rfl

theorem squeezedFrom_of_allBlank (blank : allBlank text) (notEmpty : text ≠ []) :
    squeezedFrom gap text = if gap then [] else [' '] := by
  have squeezes (text : List Char) (blank : ∀ c ∈ text, isBlank c = true) :
      squeezedFrom true text = [] := by
    induction text with
    | nil => rfl
    | cons c text inductionHypothesis =>
      rw [List.forall_mem_cons] at blank
      rw [squeezedFrom_blank blank.1, inductionHypothesis blank.2]
      rfl
  cases text with
  | nil => exact absurd rfl notEmpty
  | cons c text =>
    have each := List.forall_mem_cons.1 (allBlank_iff.1 blank)
    rw [squeezedFrom_blank each.1, squeezes text each.2, List.append_nil]

theorem gapBehind_of_allBlank (blank : allBlank text) (notEmpty : text ≠ []) :
    gapBehind gap text = true := by
  obtain ⟨front, c, rfl⟩ := List.eq_nil_or_concat text |>.resolve_left notEmpty
  rw [List.concat_eq_append] at blank ⊢
  rw [gapBehind_append]
  exact allBlank_iff.1 blank c (List.mem_append_right front List.mem_cons_self)

/-- Texts that differ only in their white space are squeezed to the same text. -/
theorem Respaced.squeezedFrom_eq {text' : List Char} (respaced : Respaced text text') (gap : Bool) :
    squeezedFrom gap text = squeezedFrom gap text' := by
  induction respaced generalizing gap with
  | nil => rfl
  | char c _ inductionHypothesis =>
    rw [squeezedFrom, squeezedFrom, inductionHypothesis true, inductionHypothesis false]
  | gap blank notEmpty blank' notEmpty' _ inductionHypothesis =>
    rw [squeezedFrom_append, squeezedFrom_append, squeezedFrom_of_allBlank blank notEmpty,
      squeezedFrom_of_allBlank blank' notEmpty', gapBehind_of_allBlank blank notEmpty,
      gapBehind_of_allBlank blank' notEmpty', inductionHypothesis]

theorem squeezedFrom_true (text : List Char) :
    squeezedFrom true text = squeezed (trimStart text) := by
  induction text with
  | nil => rfl
  | cons c text inductionHypothesis =>
    cases blank : isBlank c with
    | true => simpa [squeezedFrom_blank blank, trimStart, blank] using inductionHypothesis
    | false => simp [squeezedFrom_char blank, trimStart, blank]

theorem exists_run (blank : isBlank c) (text : List Char) :
    ∃ space, c :: text = space ++ trimStart text ∧ allBlank space ∧ space ≠ [] := by
  refine ⟨c :: text.takeWhile isBlank, ?_, ?_, List.cons_ne_nil _ _⟩
  · rw [List.cons_append, trimStart, List.takeWhile_append_dropWhile]
  · exact allBlank_iff.2
      (List.forall_mem_cons.2 ⟨blank, List.all_eq_true.1 List.all_takeWhile⟩)

theorem respaced_of_squeezed_eq {text text' : List Char} (same : squeezed text = squeezed text') :
    Respaced text text' := by
  match text, text' with
  | [], [] => exact .nil
  | [], d :: text' => cases blank : isBlank d <;> simp [squeezed, squeezedFrom, blank] at same
  | c :: text, [] => cases blank : isBlank c <;> simp [squeezed, squeezedFrom, blank] at same
  | c :: text, d :: text' =>
    cases blank : isBlank c with
    | false =>
      cases blank' : isBlank d with
      | false =>
        rw [squeezed_char blank, squeezed_char blank', List.cons.injEq] at same
        obtain ⟨rfl, same⟩ := same
        exact .char c (respaced_of_squeezed_eq same)
      | true =>
        rw [squeezed_char blank, squeezed_blank blank'] at same
        exact absurd (List.cons.inj same).1.symm (ne_of_isBlank rfl blank)
    | true =>
      cases blank' : isBlank d with
      | false =>
        rw [squeezed_blank blank, squeezed_char blank'] at same
        exact absurd (List.cons.inj same).1 (ne_of_isBlank rfl blank')
      | true =>
        rw [squeezed_blank blank, squeezed_blank blank', squeezedFrom_true,
          squeezedFrom_true] at same
        have shorter : (trimStart text).length ≤ text.length :=
          (List.dropWhile_suffix isBlank).length_le
        have behind := respaced_of_squeezed_eq (List.cons.inj same).2
        obtain ⟨space, split, spaceBlank, filled⟩ := exists_run blank text
        obtain ⟨space', split', spaceBlank', filled'⟩ := exists_run blank' text'
        rw [split, split']
        exact .gap spaceBlank filled spaceBlank' filled' behind
termination_by text.length
decreasing_by
  · exact Nat.lt_succ_self text.length
  · exact Nat.lt_succ_of_le shorter

/-- Texts differ only in their white space if and only if they are squeezed to the same text. -/
theorem respaced_iff {text text' : List Char} :
    Respaced text text' ↔ squeezed text = squeezed text' :=
  ⟨fun respaced => respaced.squeezedFrom_eq false, respaced_of_squeezed_eq⟩

instance (text text' : List Char) : Decidable (Respaced text text') :=
  decidable_of_iff _ respaced_iff.symm

example : Respaced "f (x\t)".toList "f\n(x  )".toList := by decide +kernel

example : ¬ Respaced "f (x)".toList "f(x)".toList := by decide +kernel

/-! ## What squeezing keeps -/

theorem count_squeezedFrom (gap : Bool) (text : List Char) (filled : isBlank c = false) :
    (squeezedFrom gap text).count c = text.count c := by
  induction text generalizing gap with
  | nil => rfl
  | cons d text inductionHypothesis =>
    cases blank : isBlank d with
    | true =>
      rw [squeezedFrom_blank blank, List.count_append, inductionHypothesis,
        List.count_cons_of_ne (ne_of_isBlank blank filled)]
      cases gap <;> simp [ne_of_isBlank (c := ' ') rfl filled]
    | false => rw [squeezedFrom_char blank, List.count_cons, List.count_cons, inductionHypothesis]

theorem allBlank_squeezed (text : List Char) : allBlank (squeezed text) = allBlank text := by
  have squeezes (gap : Bool) : (squeezedFrom gap text).all isBlank = text.all isBlank := by
    induction text generalizing gap with
    | nil => rfl
    | cons c text inductionHypothesis =>
      cases blank : isBlank c with
      | true =>
        rw [squeezedFrom_blank blank, List.all_append, inductionHypothesis, List.all_cons, blank]
        cases gap <;> rfl
      | false => rw [squeezedFrom_char blank, List.all_cons, List.all_cons, blank]; rfl
  exact squeezes false

theorem isEmpty_squeezed (text : List Char) : (squeezed text).isEmpty = text.isEmpty := by
  cases text with
  | nil => rfl
  | cons c text => cases blank : isBlank c <;> simp [squeezed, squeezedFrom, blank]

theorem head?_squeezed (text : List Char) :
    (squeezed text).head?.any isBlank = text.head?.any isBlank := by
  cases text with
  | nil => rfl
  | cons c text =>
    cases blank : isBlank c with
    | true =>
      rw [squeezed_blank blank, List.head?_cons, List.head?_cons, Option.any_some, Option.any_some,
        blank]
      rfl
    | false => rw [squeezed_char blank]; rfl

theorem any_squeezed (text : List Char) : (squeezed text).any isBlank = text.any isBlank := by
  induction text with
  | nil => rfl
  | cons c text inductionHypothesis =>
    cases blank : isBlank c with
    | true => simp [squeezed_blank blank, blank, show isBlank ' ' = true from rfl]
    | false =>
      rw [squeezed_char blank, List.any_cons, List.any_cons, inductionHypothesis]

theorem startsWith_squeezed {symbol : List Char} (filled : ∀ x ∈ symbol, isBlank x = false)
    (text : List Char) :
    (∃ rest, squeezed text = symbol ++ rest) ↔ ∃ rest, text = symbol ++ rest := by
  induction symbol generalizing text with
  | nil => simp
  | cons c symbol inductionHypothesis =>
    rw [List.forall_mem_cons] at filled
    cases text with
    | nil => simp [squeezed, squeezedFrom]
    | cons d text =>
      cases blank : isBlank d with
      | true =>
        simp [squeezed_blank blank, ne_of_isBlank blank filled.1,
          ne_of_isBlank (c := ' ') rfl filled.1]
      | false =>
        have tails := inductionHypothesis filled.2 text
        simp only [squeezed_char blank, List.cons_append, List.cons.injEq, exists_and_left, tails]

/-! ## Trimming -/

theorem squeezed_reverse (text : List Char) : squeezed text.reverse = (squeezed text).reverse := by
  induction text with
  | nil => rfl
  | cons c text inductionHypothesis =>
    rw [List.reverse_cons, squeezed, squeezedFrom_append, ← squeezed, inductionHypothesis,
      squeezed, squeezed]
    cases blank : isBlank c with
    | false =>
      rw [squeezedFrom_char blank, squeezedFrom_char blank, List.reverse_cons]
      rfl
    | true =>
      rw [squeezedFrom_blank blank, squeezedFrom_blank blank]
      cases text with
      | nil => rfl
      | cons d text =>
        -- The two runs at the cut are one if the rest starts with white space as well.
        have last : gapBehind false (d :: text).reverse = isBlank d := by
          simp [gapBehind_append]
        rw [last]
        cases next : isBlank d with
        | true => simp [squeezedFrom, next]
        | false => simp [squeezedFrom, next]

theorem dropLast?_squeezed (filled : isBlank c = false) (text : List Char) :
    dropLast? c (squeezed text) = (dropLast? c text).map squeezed := by
  obtain ⟨text, rfl⟩ : ∃ reversed, text = reversed.reverse := ⟨text.reverse, by simp⟩
  rw [squeezed_reverse]
  cases text with
  | nil => rfl
  | cons d text =>
    cases blank : isBlank d with
    | true =>
      simp [squeezed_blank blank, dropLast?, ne_of_isBlank blank filled,
        ne_of_isBlank (c := ' ') rfl filled]
    | false =>
      rw [squeezed_char blank]
      by_cases same : d = c
      · simp [dropLast?, same, squeezed_reverse]
      · simp [dropLast?, same]

theorem trimStart_squeezed (text : List Char) :
    trimStart (squeezed text) = squeezed (trimStart text) := by
  have trims (gap : Bool) : trimStart (squeezedFrom gap text) = squeezed (trimStart text) := by
    induction text generalizing gap with
    | nil => rfl
    | cons c text inductionHypothesis =>
      cases blank : isBlank c with
      | true =>
        have dropped : trimStart (c :: text) = trimStart text := by simp [trimStart, blank]
        rw [squeezedFrom_blank blank, dropped, ← inductionHypothesis true]
        cases gap
        · rfl
        · rfl
      | false => simp [squeezedFrom, trimStart, blank]
  exact trims false

theorem trim_squeezed (text : List Char) : trim (squeezed text) = squeezed (trim text) := by
  have ends (text : List Char) : trimEnd (squeezed text) = squeezed (trimEnd text) := by
    have fromEnd := trimStart_squeezed text.reverse
    rw [squeezed_reverse] at fromEnd
    change (trimStart (squeezed text).reverse).reverse = squeezed (trimStart text.reverse).reverse
    rw [fromEnd, squeezed_reverse]
  rw [trim, trimStart_squeezed, ends, trim]

end Text

end Abacus
