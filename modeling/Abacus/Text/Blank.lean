/-!
# White space and lines

White space is Unicode's `White_Space` property.  Texts are lists of characters
here; the rest of the library trims, splits and tests them with these functions.
-/

namespace Abacus.Text

/-- The characters with Unicode's `White_Space` property: eleven single ones
    and the two ranges U+0009 to U+000D and U+2000 to U+200A. -/
def isBlank (c : Char) : Bool :=
  let n := c.toNat
  (0x09 ≤ n && n ≤ 0x0D) || n = 0x20 || n = 0x85 || n = 0xA0 || n = 0x1680 ||
    (0x2000 ≤ n && n ≤ 0x200A) || n = 0x2028 || n = 0x2029 || n = 0x202F || n = 0x205F ||
    n = 0x3000

/-- Whether a text has nothing but white space. -/
def allBlank (text : List Char) : Bool := text.all isBlank

/-- Drops the white space in front. -/
def trimStart (text : List Char) : List Char := text.dropWhile isBlank

/-- Drops the white space at the end. -/
def trimEnd (text : List Char) : List Char := (text.reverse.dropWhile isBlank).reverse

/-- Drops the white space at both ends. -/
def trim (text : List Char) : List Char := trimEnd (trimStart text)

/-- Splits at the first character that satisfies `p`, which goes to neither
    side. -/
def splitOnce? (p : Char → Bool) : List Char → Option (List Char × List Char)
  | [] => none
  | c :: rest =>
    if p c then some ([], rest)
    else (splitOnce? p rest).map fun (before, after) => (c :: before, after)

/-- Splits at every character that satisfies `p`; there is one part more than
    such characters. -/
def splitAll (p : Char → Bool) : List Char → List (List Char)
  | [] => [[]]
  | c :: rest =>
    if p c then [] :: splitAll p rest
    else match splitAll p rest with
      | [] => [[c]]
      | part :: parts => (c :: part) :: parts

/-- The text without `start` in front, if it starts so. -/
def dropPrefix? : List Char → List Char → Option (List Char)
  | [], text => some text
  | _ :: _, [] => none
  | c :: start, d :: text => if c = d then dropPrefix? start text else none

/-- The text without its last character, if that is `c`. -/
def dropLast? (c : Char) (text : List Char) : Option (List Char) :=
  if text.getLast? = some c then some text.dropLast else none

/-- The lines of a text.  A line ends at a line feed, and a carriage return
    right before it belongs to the line's end; a last line without a line feed
    counts if it is not empty. -/
def lines (text : List Char) : List (List Char) :=
  let parts := splitAll (· = '\n') text
  let ended := parts.dropLast.map fun line => (dropLast? '\r' line).getD line
  match parts.getLast? with
  -- The part behind the last line feed is a line only if it is not empty.
  | some (c :: rest) => ended ++ [c :: rest]
  | _ => ended

/-! ## Laws -/

@[simp] theorem trim_nil : trim [] = [] := rfl

theorem allBlank_iff {text : List Char} : allBlank text = true ↔ ∀ c ∈ text, isBlank c = true := by
  simp [allBlank]

theorem dropLast?_eq_some_iff {c : Char} {text rest : List Char} :
    dropLast? c text = some rest ↔ text = rest ++ [c] := by
  unfold dropLast?
  constructor
  · intro h
    split at h
    · rename_i hlast
      obtain ⟨init, rfl⟩ := List.getLast?_eq_some_iff.1 hlast
      simp_all
    · cases h
  · rintro rfl
    simp

end Abacus.Text
