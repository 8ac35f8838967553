import Abacus.Parse.Parser

/-!
# Texts with parentheses

In a nested text every parenthesis has its partner.  What the parser does with
parentheses is decided by such texts alone: they close nothing that is open around
them, and a comma splits only outside of them.
-/

namespace Abacus

namespace Text

/-- Texts whose parentheses pair up and whose other characters, where no parenthesis is open,
    satisfy a condition. -/
inductive Nested : (outside : Char → Prop) → List Char → Prop where
  | nil (outside : Char → Prop) : Nested outside []
  | char {outside : Char → Prop} {c : Char} {text : List Char} : outside c → c ≠ '(' → c ≠ ')' →
      Nested outside text → Nested outside (c :: text)
  | group {outside : Char → Prop} {inner text : List Char} : Nested (fun _ => True) inner →
      Nested outside text → Nested outside ('(' :: (inner ++ ')' :: text))

namespace Nested

variable {p q : Char → Prop} {text rest : List Char}

theorem append (first : Nested p text) (second : Nested p rest) : Nested p (text ++ rest) := by
  induction first with
  | nil => exact second
  | char satisfied opens closes _ inductionHypothesis =>
    exact .char satisfied opens closes (inductionHypothesis second)
  | group inner _ _ inductionHypothesis =>
    rw [List.cons_append, List.append_assoc, List.cons_append]
    exact .group inner (inductionHypothesis second)

theorem weaken (nested : Nested p text) (imp : ∀ c, p c → q c) : Nested q text := by
  induction nested with
  | nil => exact .nil q
  | char satisfied opens closes _ inductionHypothesis =>
    exact .char (imp _ satisfied) opens closes (inductionHypothesis imp)
  | group inner _ _ inductionHypothesis => exact .group inner (inductionHypothesis imp)

theorem ofChars (chars : ∀ c ∈ text, p c ∧ c ≠ '(' ∧ c ≠ ')') : Nested p text := by
  induction text with
  | nil => exact .nil p
  | cons c text inductionHypothesis =>
    rw [List.forall_mem_cons] at chars
    obtain ⟨satisfied, opens, closes⟩ := chars.1
    exact .char satisfied opens closes (inductionHypothesis chars.2)

theorem parens (inner : Nested q text) (p : Char → Prop) :
    Nested p ('(' :: (text ++ [')'])) :=
  .group (inner.weaken fun _ _ => True.intro) (.nil p)

theorem head?_eq (nested : Nested p text) {c : Char} (first : text.head? = some c) :
    p c ∨ c = '(' := by
  cases nested with
  | nil => cases first
  | char satisfied _ _ _ =>
    cases first
    exact .inl satisfied
  | group _ _ =>
    cases first
    exact .inr rfl

theorem getLast?_eq (nested : Nested p text) {c : Char} (last : text.getLast? = some c) :
    p c ∨ c = ')' := by
  induction nested with
  | nil => cases last
  | @char _ d text satisfied _ _ _ inductionHypothesis =>
    cases text with
    | nil =>
      cases last
      exact .inl satisfied
    | cons e text => exact inductionHypothesis (by simpa using last)
  | @group _ inner text _ _ _ inductionHypothesis =>
    rw [← List.cons_append, List.getLast?_append] at last
    cases text with
    | nil =>
      cases last
      exact .inr rfl
    | cons e text => exact inductionHypothesis (by simpa using last)

end Nested

/-! ## Trimming -/

theorem trim_of_filled {text : List Char} (first : ∀ c, text.head? = some c → isBlank c = false)
    (last : ∀ c, text.getLast? = some c → isBlank c = false) : trim text = text := by
  have front : trimStart text = text := by
    cases text with
    | nil => rfl
    | cons c text => exact List.dropWhile_cons_of_neg (by simp [first c rfl])
  rw [trim, front, trimEnd]
  cases reversed : text.reverse with
  | nil => rw [List.reverse_eq_nil_iff.1 reversed]; rfl
  | cons c back =>
    have filled := last c (by rw [← List.head?_reverse, reversed]; rfl)
    rw [List.dropWhile_cons_of_neg (by simp [filled]), ← reversed, List.reverse_reverse]

theorem trim_trim (text : List Char) : trim (trim text) = trim text := by
  have filled {text : List Char} {c : Char} (first : (text.dropWhile isBlank).head? = some c) :
      isBlank c = false := by
    have firm := List.head?_dropWhile_not isBlank text
    rw [first] at firm
    simpa using firm
  refine trim_of_filled (fun c first => ?_) fun c last => ?_
  · rw [trim, trimEnd, List.head?_reverse] at first
    obtain ⟨before, whole⟩ := List.dropWhile_suffix isBlank (l := (trimStart text).reverse)
    have start : (trimStart text).reverse.getLast? = some c := by
      rw [← whole, List.getLast?_append, first]
      rfl
    rw [List.getLast?_reverse] at start
    exact filled start
  · rw [trim, trimEnd, List.getLast?_reverse] at last
    exact filled last

namespace Nested

variable {p : Char → Prop} {text : List Char} (nested : Nested p text)
  (filled : ∀ c, p c → isBlank c = false)

include nested filled

theorem first_filled {c : Char} (first : text.head? = some c) : isBlank c = false := by
  rcases nested.head?_eq first with satisfied | rfl
  · exact filled c satisfied
  · rfl

theorem last_filled {c : Char} (last : text.getLast? = some c) : isBlank c = false := by
  rcases nested.getLast?_eq last with satisfied | rfl
  · exact filled c satisfied
  · rfl

theorem trim : Text.trim text = text :=
  trim_of_filled (fun _ => nested.first_filled filled) fun _ => nested.last_filled filled

end Nested

end Text

namespace Parse

open Text

variable {p : Char → Prop} {text : List Char}

/-! ## Brackets -/

theorem closes_cons {c : Char} (opens : c ≠ '(') (closes : c ≠ ')') (depth : Nat)
    (text : List Char) : Parse.closes depth (c :: text) = Parse.closes depth text := by
  rw [Parse.closes]
  · exact opens
  · exact fun _ => closes
  · exact fun _ _ => closes

theorem closes_append (nested : Nested p text) (depth : Nat) (rest : List Char) :
    closes depth (text ++ rest) = closes depth rest := by
  induction nested generalizing depth rest with
  | nil => rfl
  | char _ opens closes _ inductionHypothesis =>
    rw [List.cons_append, closes_cons opens closes]
    exact inductionHypothesis depth rest
  | group _ _ innerHypothesis inductionHypothesis =>
    rw [List.cons_append, List.append_assoc, List.cons_append, closes, innerHypothesis, closes,
      inductionHypothesis]

theorem balanced_of_nested (nested : Nested p text) : balanced text := by
  have ends := closes_append nested 0 []
  rwa [List.append_nil] at ends

theorem exists_partner {depth : Nat} (text : List Char) (ends : closes (depth + 1) text) :
    ∃ inner rest, text = inner ++ ')' :: rest ∧ Nested (fun _ => True) inner ∧
      closes depth rest := by
  match text with
  | [] => simp [closes] at ends
  | c :: text =>
    by_cases isOpen : c = '('
    · subst isOpen
      obtain ⟨inner, rest, rfl, nested, ends⟩ := exists_partner text ends
      obtain ⟨inner', rest', rfl, nested', ends⟩ := exists_partner rest ends
      exact ⟨'(' :: (inner ++ ')' :: inner'), rest', by simp, .group nested nested', ends⟩
    · by_cases isClose : c = ')'
      · subst isClose
        exact ⟨[], text, rfl, .nil _, ends⟩
      · rw [closes_cons isOpen isClose] at ends
        obtain ⟨inner, rest, rfl, nested, ends⟩ := exists_partner text ends
        exact ⟨c :: inner, rest, rfl, .char True.intro isOpen isClose nested, ends⟩
termination_by text.length

/-- A text whose parentheses pair up is nested. -/
theorem nested_of_balanced (text : List Char) (pairs : balanced text) :
    Nested (fun _ => True) text := by
  match text with
  | [] => exact .nil _
  | c :: text =>
    by_cases isOpen : c = '('
    · subst isOpen
      obtain ⟨inner, rest, rfl, nested, ends⟩ := exists_partner text pairs
      exact .group nested (nested_of_balanced rest ends)
    · by_cases isClose : c = ')'
      · subst isClose
        cases pairs
      · rw [balanced, closes_cons isOpen isClose] at pairs
        exact .char True.intro isOpen isClose (nested_of_balanced text pairs)
termination_by text.length

theorem betweenParens?_parens (nested : Nested p text) :
    betweenParens? ('(' :: (text ++ [')'])) = some text := by
  have cut : Text.dropLast? ')' (text ++ [')']) = some text := dropLast?_eq_some_iff.2 rfl
  rw [betweenParens?, cut, Option.filter_some, if_pos (balanced_of_nested nested)]

theorem betweenParens?_of_rest (nested : Nested p text) {rest : List Char} (filled : rest ≠ []) :
    betweenParens? ('(' :: (text ++ ')' :: rest)) = none := by
  refine Option.eq_none_iff_forall_ne_some.2 fun inner found => ?_
  obtain ⟨cut, pairs⟩ := Option.filter_eq_some_iff.1 found
  have last := dropLast?_eq_some_iff.1 cut
  rw [← List.dropLast_concat_getLast filled, ← List.cons_append, ← List.append_assoc] at last
  obtain ⟨rfl, _⟩ := List.append_inj' last rfl
  rw [balanced, closes_append nested] at pairs
  cases pairs

theorem ends_of_betweenParens? {inner : List Char} (found : betweenParens? text = some inner) :
    text.head? = some '(' ∧ text.getLast? = some ')' := by
  unfold betweenParens? at found
  split at found
  · rename_i text
    obtain ⟨cut, _⟩ := Option.filter_eq_some_iff.1 found
    rw [dropLast?_eq_some_iff.1 cut]
    exact ⟨rfl, by rw [← List.cons_append]; exact List.getLast?_concat⟩
  · cases found

/-! ## Arguments -/

theorem splitAtCommas_append (nested : Nested p text) (depth : Nat)
    (plain : depth = 0 → ∀ c, p c → c ≠ ',') {rest part : List Char} {parts : List (List Char)}
    (split : splitAtCommas depth rest = part :: parts) :
    splitAtCommas depth (text ++ rest) = (text ++ part) :: parts := by
  induction nested generalizing depth rest part parts with
  | nil => exact split
  | @char _ c text satisfied opens closes _ inductionHypothesis =>
    have stays : ¬ (c = ',' ∧ depth = 0) := fun both => plain both.2 c satisfied both.1
    rw [List.cons_append, splitAtCommas, if_neg stays, if_neg opens, if_neg closes]
    simp only [inductionHypothesis depth plain split]
    rfl
  | @group _ inner text _ _ innerHypothesis inductionHypothesis =>
    have outside := inductionHypothesis depth plain split
    have closing : splitAtCommas (depth + 1) (')' :: (text ++ rest)) =
        (')' :: (text ++ part)) :: parts := by
      simp [splitAtCommas, outside]
    have inside := innerHypothesis (depth + 1) (fun zero => by cases zero) closing
    rw [List.cons_append, List.append_assoc, List.cons_append]
    simp [splitAtCommas, inside]

end Parse

end Abacus
