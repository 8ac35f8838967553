import Abacus.Text.GraphemeBreak

/-!
# Grapheme clusters

Cuts a text into its extended grapheme clusters, the units that a reader takes
for one character, and says what typing leaves of a line: a backspace erases the
cluster before it.
-/

namespace Abacus.Text

/-- How a cluster ends, as far as it decides whether the next character still
    belongs to it. -/
inductive ClusterEnd where
  /-- Only marks may follow. -/
  | plain
  /-- Nothing may follow. -/
  | sealed
  | carriageReturn
  /-- A mark that waits for its character. -/
  | prepended
  /-- Hangul that a syllable may continue: a leading consonant, a vowel, a
      trailing consonant. -/
  | leading
  | vowel
  | trailing
  /-- A consonant with its marks, which do not link it to another yet, and one
      that is linked. -/
  | consonant
  | linked
  /-- A pictograph with its marks, and one that a joiner follows. -/
  | pictograph
  | joined
  /-- The first half of a flag. -/
  | halfFlag
  deriving DecidableEq, Repr

namespace ClusterEnd

/-- The end of a cluster that begins with a character of this class. -/
def start : GraphemeBreak → ClusterEnd
  | .carriageReturn => .carriageReturn
  | .lineFeed | .control => .sealed
  | .prepended => .prepended
  | .leading => .leading
  | .vowel | .openSyllable => .vowel
  | .trailing | .closedSyllable => .trailing
  | .consonant => .consonant
  | .pictographic => .pictograph
  | .regional => .halfFlag
  | .other | .extend | .nonJoiner | .linker | .joiner | .spacing => .plain

/-- The end of a cluster after one character more; `none` if the character begins
    the next cluster. -/
def extend? : ClusterEnd → GraphemeBreak → Option ClusterEnd
  -- Controls stand alone, but for the two characters of a line's end.
  | .carriageReturn, .lineFeed => some .sealed
  | .sealed, _ | .carriageReturn, _ => none
  | _, .control | _, .carriageReturn | _, .lineFeed => none
  -- Everything else may follow a mark that waits for its character.
  | .prepended, b => some (start b)
  -- Hangul: leading consonants, then vowels, then trailing consonants.
  | .leading, .leading => some .leading
  | .leading, .vowel | .leading, .openSyllable | .vowel, .vowel => some .vowel
  | .leading, .closedSyllable | .vowel, .trailing | .trailing, .trailing => some .trailing
  -- Conjuncts: consonants with a virama between them.
  | .consonant, .linker | .linked, .linker => some .linked
  | .consonant, .extend | .consonant, .joiner | .linked, .consonant => some .consonant
  | .linked, .extend | .linked, .joiner => some .linked
  -- Pictographs with a joiner between them.
  | .pictograph, .extend | .pictograph, .nonJoiner | .pictograph, .linker => some .pictograph
  | .pictograph, .joiner => some .joined
  | .joined, .pictographic => some .pictograph
  -- The second half of a flag.
  | .halfFlag, .regional => some .plain
  -- Marks belong to the character before them.
  | _, .extend | _, .nonJoiner | _, .linker | _, .joiner | _, .spacing => some .plain
  | _, _ => none

end ClusterEnd

/-- Cuts a text that continues a cluster with the given end: what still belongs to
    that cluster and the clusters behind it. -/
def clustersAfter (e : ClusterEnd) : List Char → List Char × List (List Char)
  | [] => ([], [])
  | c :: rest =>
    let b := GraphemeBreak.ofChar c
    match e.extend? b with
    | some e =>
      let (more, next) := clustersAfter e rest
      (c :: more, next)
    | none =>
      let (more, next) := clustersAfter (.start b) rest
      ([], (c :: more) :: next)

/-- The extended grapheme clusters of a text.  The first one begins as if behind
    the end of a line. -/
def clusters (text : List Char) : List (List Char) := (clustersAfter .sealed text).2

def backspace : Char := '\x08'

/-- Types a cluster behind those that stand, of which the last comes first.  A
    backspace removes the last one, if there is any. -/
def typeCluster (standing : List (List Char)) (cluster : List Char) : List (List Char) :=
  if cluster = [backspace] then standing.tail else cluster :: standing

/-- What stands after a line has been typed. -/
def typed (line : List Char) : List Char :=
  ((clusters line).foldl typeCluster []).reverse.flatten

end Abacus.Text
