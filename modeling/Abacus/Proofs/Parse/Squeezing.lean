import Abacus.Parse.Parser
import Abacus.Proofs.Text.Squeezed

/-!
# Taking squeezed texts apart

What the parser looks for in a text stands there just as well when the text is squeezed: partners of
parentheses, the text between them, and the arguments of a call, which are squeezed then.
-/

namespace Abacus

open Text

namespace Parse

/-! ## Parentheses -/

theorem closes_char {c : Char} (opens : c ≠ '(') (closing : c ≠ ')') (depth : Nat)
    (text : List Char) : closes depth (c :: text) = closes depth text := by
  cases depth <;> simp [closes, closing]

theorem closes_squeezedFrom (depth : Nat) (gap : Bool) (text : List Char) :
    closes depth (squeezedFrom gap text) = closes depth text := by
  induction text generalizing depth gap with
  | nil => rfl
  | cons c text inductionHypothesis =>
    cases blank : isBlank c with
    | true =>
      have opens : c ≠ '(' := ne_of_isBlank blank rfl
      have closing : c ≠ ')' := ne_of_isBlank blank rfl
      rw [squeezedFrom_blank blank, closes_char opens closing, ← inductionHypothesis depth true]
      cases gap with
      | true => rfl
      | false => exact closes_char (by decide) (by decide) depth _
    | false =>
      rw [squeezedFrom_char blank]
      by_cases opens : c = '('
      · subst opens
        exact inductionHypothesis (depth + 1) false
      · by_cases closing : c = ')'
        · subst closing
          cases depth with
          | zero => rfl
          | succ depth => exact inductionHypothesis depth false
        · rw [closes_char opens closing, closes_char opens closing, inductionHypothesis]

theorem balanced_squeezed (text : List Char) : balanced (squeezed text) = balanced text :=
  closes_squeezedFrom 0 false text

theorem betweenParens?_of_ne {c : Char} (opens : c ≠ '(') (text : List Char) :
    betweenParens? (c :: text) = none := by
  simp [betweenParens?, opens]

theorem betweenParens?_squeezed (text : List Char) :
    betweenParens? (squeezed text) = (betweenParens? text).map squeezed := by
  cases text with
  | nil => rfl
  | cons c text =>
    cases blank : isBlank c with
    | true =>
      rw [squeezed_blank blank, betweenParens?_of_ne (ne_of_isBlank blank rfl)]
      exact betweenParens?_of_ne (by decide) _
    | false =>
      rw [squeezed_char blank]
      by_cases opens : c = '('
      · subst opens
        rw [betweenParens?, betweenParens?, dropLast?_squeezed rfl]
        cases dropLast? ')' text with
        | none => rfl
        | some inner => simp [Option.filter, balanced_squeezed, apply_ite]
      · rw [betweenParens?_of_ne opens, betweenParens?_of_ne opens]
        rfl

/-! ## Arguments -/

/-- The parts of a text, squeezed; `gap` says whether white space is in front of the first. -/
def squeezedParts (gap : Bool) : List (List Char) → List (List Char)
  | [] => []
  | part :: parts => squeezedFrom gap part :: parts.map squeezed

@[simp] theorem squeezedParts_false (parts : List (List Char)) :
    squeezedParts false parts = parts.map squeezed := by
  cases parts <;> rfl

def depthAfter (depth : Nat) (c : Char) : Nat :=
  if c = '(' then depth + 1 else if c = ')' then depth - 1 else depth

theorem exists_splitAtCommas (depth : Nat) (text : List Char) :
    ∃ part parts, splitAtCommas depth text = part :: parts := by
  cases text with
  | nil => exact ⟨_, _, rfl⟩
  | cons c text =>
    rw [splitAtCommas]
    split
    · exact ⟨_, _, rfl⟩
    · dsimp only
      split <;> exact ⟨_, _, rfl⟩

theorem splitAtCommas_char {depth : Nat} {c : Char} (stays : ¬ (c = ',' ∧ depth = 0))
    {text part : List Char} {parts : List (List Char)}
    (split : splitAtCommas (depthAfter depth c) text = part :: parts) :
    splitAtCommas depth (c :: text) = (c :: part) :: parts := by
  rw [splitAtCommas, if_neg stays]
  dsimp only
  rw [← depthAfter, split]

theorem splitAtCommas_squeezedFrom (depth : Nat) (gap : Bool) (text : List Char) :
    splitAtCommas depth (squeezedFrom gap text) = squeezedParts gap (splitAtCommas depth text) := by
  induction text generalizing depth gap with
  | nil => rfl
  | cons c text inductionHypothesis =>
    obtain ⟨part, parts, splits⟩ := exists_splitAtCommas (depthAfter depth c) text
    cases blank : isBlank c with
    | true =>
      have stays : ¬ (c = ',' ∧ depth = 0) := fun comma => ne_of_isBlank blank rfl comma.1
      have same : depthAfter depth c = depth := by
        simp [depthAfter, ne_of_isBlank (d := '(') blank rfl, ne_of_isBlank (d := ')') blank rfl]
      have behind := inductionHypothesis depth true
      rw [splitAtCommas_char stays splits, squeezedFrom_blank blank]
      rw [same] at splits
      rw [splits] at behind
      cases gap with
      | true => rw [squeezedParts, squeezedFrom_blank blank]; exact behind
      | false =>
        rw [squeezedParts, squeezedFrom_blank blank]
        exact splitAtCommas_char (by simp) behind
    | false =>
      rw [squeezedFrom_char blank]
      by_cases comma : c = ',' ∧ depth = 0
      · rw [splitAtCommas, if_pos comma, splitAtCommas, if_pos comma, inductionHypothesis,
          squeezedParts_false]
        rfl
      · have behind := inductionHypothesis (depthAfter depth c) false
        rw [splits] at behind
        rw [splitAtCommas_char comma splits, splitAtCommas_char comma behind, squeezedParts,
          squeezedFrom_char blank]

theorem argumentTexts_squeezed (text : List Char) :
    argumentTexts (squeezed text) = (argumentTexts text).map squeezed := by
  rw [argumentTexts, argumentTexts, allBlank_squeezed]
  split
  · rfl
  · rw [squeezed, splitAtCommas_squeezedFrom, squeezedParts_false, List.map_map, List.map_map]
    exact List.map_congr_left fun part _ => trim_squeezed part

/-! ## The name in front of a parenthesis -/

theorem takeWhile_squeezedFrom (gap : Bool) (text : List Char) :
    (squeezedFrom gap text).takeWhile (· ≠ '(') = squeezedFrom gap (text.takeWhile (· ≠ '(')) := by
  induction text generalizing gap with
  | nil => rfl
  | cons c text inductionHypothesis =>
    cases blank : isBlank c with
    | true =>
      have passes : c ≠ '(' := ne_of_isBlank blank rfl
      have behind := inductionHypothesis true
      cases gap <;> simpa [squeezedFrom_blank blank, passes] using behind
    | false =>
      have behind := inductionHypothesis false
      rw [squeezedFrom_char blank]
      by_cases opens : c = '('
      · simp [opens, squeezedFrom]
      · simpa [squeezedFrom_char blank, opens] using behind

theorem dropWhile_squeezedFrom (gap : Bool) (text : List Char) :
    (squeezedFrom gap text).dropWhile (· ≠ '(') = squeezed (text.dropWhile (· ≠ '(')) := by
  induction text generalizing gap with
  | nil => rfl
  | cons c text inductionHypothesis =>
    cases blank : isBlank c with
    | true =>
      have passes : c ≠ '(' := ne_of_isBlank blank rfl
      have behind := inductionHypothesis true
      cases gap <;> simpa [squeezedFrom_blank blank, passes] using behind
    | false =>
      have behind := inductionHypothesis false
      rw [squeezedFrom_char blank]
      by_cases opens : c = '('
      · subst opens
        simp [squeezed_char blank]
      · simpa [opens] using behind

end Parse

end Abacus
