import Abacus.Proofs.Parse.Squeezing
import Abacus.Proofs.Tokens.Spacing

/-!
# How deep parentheses are open

The depth of a text is counted without saturation: a parenthesis that closes nothing has no depth
behind it.  A text is balanced if its depth is zero again, and what the parser cuts off a balanced
text in front of, behind and between its parentheses is balanced too.
-/

namespace Abacus.Parse

open Text

/-- How many parentheses are open behind a character that closes none that is not open. -/
def opened? (depth : Nat) (c : Char) : Option Nat :=
  if c = ')' ∧ depth = 0 then none else some (depthAfter depth c)

def depth? (depth : Nat) (text : List Char) : Option Nat := text.foldlM opened? depth

section

variable {depth : Nat} {text rest : List Char}

@[simp] theorem depth?_nil (depth : Nat) : depth? depth [] = some depth := rfl

theorem depth?_cons (depth : Nat) (c : Char) (text : List Char) :
    depth? depth (c :: text) = (opened? depth c).bind fun depth => depth? depth text := rfl

theorem depth?_append (depth : Nat) (text rest : List Char) :
    depth? depth (text ++ rest) = (depth? depth text).bind fun depth => depth? depth rest :=
  List.foldlM_append

theorem depth?_append_eq_some {last : Nat} (whole : depth? depth (text ++ rest) = some last) :
    ∃ between, depth? depth text = some between ∧ depth? between rest = some last := by
  rw [depth?_append] at whole
  exact Option.bind_eq_some_iff.1 whole

theorem opened?_char {c : Char} (opens : c ≠ '(') (closes : c ≠ ')') (depth : Nat) :
    opened? depth c = some depth := by
  simp [opened?, depthAfter, opens, closes]

theorem depthAfter_of_opened? {c : Char} {next : Nat} (opens : opened? depth c = some next) :
    depthAfter depth c = next := by
  unfold opened? at opens
  split at opens
  · cases opens
  · exact Option.some.inj opens

theorem depth?_of_chars (chars : ∀ c ∈ text, c ≠ '(' ∧ c ≠ ')') (depth : Nat) :
    depth? depth text = some depth := by
  induction text with
  | nil => rfl
  | cons c text inductionHypothesis =>
    rw [List.forall_mem_cons] at chars
    rw [depth?_cons, opened?_char chars.1.1 chars.1.2, Option.bind_some,
      inductionHypothesis chars.2]

theorem depth?_of_allBlank (blank : allBlank text) (depth : Nat) :
    depth? depth text = some depth :=
  depth?_of_chars (fun c member =>
    ⟨ne_of_isBlank (allBlank_iff.1 blank c member) rfl,
      ne_of_isBlank (allBlank_iff.1 blank c member) rfl⟩) depth

theorem closes_eq (depth : Nat) (text : List Char) :
    closes depth text = decide (depth? depth text = some 0) := by
  induction text generalizing depth with
  | nil => simp [closes]
  | cons c text inductionHypothesis =>
    rw [depth?_cons]
    by_cases isOpen : c = '('
    · subst isOpen
      exact inductionHypothesis (depth + 1)
    by_cases isClose : c = ')'
    · subst isClose
      cases depth with
      | zero => rfl
      | succ depth => exact inductionHypothesis depth
    · rw [closes_cons isOpen isClose, opened?_char isOpen isClose]
      exact inductionHypothesis depth

theorem balanced_iff : balanced text ↔ depth? 0 text = some 0 := by
  rw [balanced, closes_eq, decide_eq_true_eq]

theorem depth?_trim (depth : Nat) (text : List Char) :
    depth? depth (trim text) = depth? depth text := by
  have spaced := Spaced.trim text
  generalize trim text = inner at spaced ⊢
  cases spaced with
  | piece front spaced =>
    cases spaced with
    | blank back =>
      rw [depth?_append, depth?_of_allBlank front, Option.bind_some, depth?_append]
      cases depth? depth inner with
      | none => rfl
      | some between => exact (depth?_of_allBlank back between).symm

theorem balanced_trim (pairs : balanced text) : balanced (trim text) := by
  rwa [balanced_iff, depth?_trim, ← balanced_iff]

/-! ## Interiors and arguments -/

theorem balanced_of_betweenParens? {inner : List Char} (found : betweenParens? text = some inner) :
    balanced inner := by
  unfold betweenParens? at found
  split at found
  · exact (Option.filter_eq_some_iff.1 found).2
  · cases found

/-- Splits a text at the commas outside of all parentheses, unless it closes one that is not
    open. -/
def splitAtCommas? : (depth : Nat) → List Char → Option (List (List Char))
  | _, [] => some [[]]
  | depth, c :: text =>
    if c = ',' ∧ depth = 0 then (splitAtCommas? depth text).map ([] :: ·)
    else (opened? depth c).bind fun depth => (splitAtCommas? depth text).map fun
      | [] => [[c]]
      | part :: parts => (c :: part) :: parts

/-- Where no parenthesis is closed that is not open, the depth of the splitter is exact. -/
theorem splitAtCommas?_of_depth? (counts : (depth? depth text).isSome) :
    splitAtCommas? depth text = some (splitAtCommas depth text) := by
  induction text generalizing depth with
  | nil => rfl
  | cons c text inductionHypothesis =>
    rw [depth?_cons] at counts
    obtain ⟨next, opens⟩ := Option.isSome_iff_exists.1 (Option.isSome_of_isSome_bind counts)
    rw [opens, Option.bind_some] at counts
    rw [splitAtCommas?, splitAtCommas]
    split
    · rename_i comma
      obtain ⟨rfl, rfl⟩ := comma
      cases opens
      have counts : (depth? 0 text).isSome := counts
      rw [inductionHypothesis counts, Option.map_some]
    · have same := depthAfter_of_opened? opens
      rw [opens, Option.bind_some, inductionHypothesis counts, Option.map_some]
      change _ = some (match splitAtCommas (depthAfter depth c) text with
        | [] => [[c]]
        | part :: parts => (c :: part) :: parts)
      rw [same]

/-- Commas outside of all parentheses cut a text into balanced parts. -/
theorem balanced_splitAtCommas (ends : depth? depth text = some 0) :
    ∃ part parts, splitAtCommas depth text = part :: parts ∧ depth? depth part = some 0 ∧
      ∀ part ∈ parts, balanced part := by
  induction text generalizing depth with
  | nil => exact ⟨[], [], rfl, ends, List.forall_mem_nil _⟩
  | cons c text inductionHypothesis =>
    by_cases comma : c = ',' ∧ depth = 0
    · obtain ⟨rfl, rfl⟩ := comma
      have ends : depth? 0 text = some 0 := ends
      obtain ⟨part, parts, split, first, others⟩ := inductionHypothesis ends
      refine ⟨[], part :: parts, ?_, rfl, List.forall_mem_cons.2 ⟨balanced_iff.2 first, others⟩⟩
      rw [splitAtCommas, if_pos ⟨rfl, rfl⟩, split]
    · rw [depth?_cons] at ends
      obtain ⟨next, opens, ends⟩ := Option.bind_eq_some_iff.1 ends
      have same := depthAfter_of_opened? opens
      obtain ⟨part, parts, split, first, others⟩ := inductionHypothesis ends
      refine ⟨c :: part, parts, splitAtCommas_char comma (same ▸ split), ?_, others⟩
      rw [depth?_cons, opens, Option.bind_some, first]

theorem balanced_of_mem_argumentTexts (pairs : balanced text) {argument : List Char}
    (member : argument ∈ argumentTexts text) : balanced argument := by
  obtain ⟨first, parts, split, closes, others⟩ := balanced_splitAtCommas (balanced_iff.1 pairs)
  unfold argumentTexts at member
  split at member
  · cases member
  · rw [split] at member
    obtain ⟨part, among, rfl⟩ := List.mem_map.1 member
    rcases List.mem_cons.1 among with rfl | among
    · exact balanced_trim (balanced_iff.2 closes)
    · exact balanced_trim (others part among)

end

end Abacus.Parse
