import Abacus.Text.Blank

/-!
# Scripts

A script is a text of statements, one a line.  Everything from a `#` on is a
comment, and a line whose code ends in a backslash goes on in the next one.  A
statement is known by the number of the line it starts on; blank statements are
dropped.
-/

namespace Abacus.Script

/-- A statement with the number of its first line. -/
abbrev Statement := Nat × List Char

/-- The part of a line before its comment. -/
def code (line : List Char) : List Char := line.takeWhile (· ≠ '#')

/-- The text that a line adds to its statement, and whether the statement goes
    on.  A line that goes on loses its backslash and the white space behind it. -/
def contribution (line : List Char) : List Char × Bool :=
  match Text.dropLast? '\\' (Text.trimEnd (code line)) with
  | some text => (text, true)
  | none => (code line, false)

/-- Adds a line's text to a statement; a line feed separates it from text before
    it. -/
def join (statement text : List Char) : List Char :=
  if statement.isEmpty then text else statement ++ '\n' :: text

/-- A statement, unless it is blank. -/
def completed (number : Nat) (statement : List Char) : Option Statement :=
  if Text.allBlank statement then none else some (number, statement)

/-- Lines on their way to become statements. -/
structure Collector where
  /-- The statement that waits for its next line. -/
  waiting : Option Statement := none

namespace Collector

/-- Takes the line with a number, and gives the statement that it completes. -/
def take (c : Collector) (number : Nat) (line : List Char) : Option Statement × Collector :=
  let (text, goesOn) := contribution line
  let (number, statement) := c.waiting.getD (number, [])
  let statement := join statement text
  if goesOn then (none, ⟨some (number, statement)⟩) else (completed number statement, ⟨none⟩)

/-- Whether a statement waits for its next line. -/
def isWaiting (c : Collector) : Bool := c.waiting.isSome

/-- Ends the input, which completes the waiting statement. -/
def flush (c : Collector) : Option Statement × Collector :=
  (c.waiting.bind fun (number, statement) => completed number statement, ⟨none⟩)

def reset (_ : Collector) : Collector := ⟨none⟩

/-- Takes lines numbered from `number` on, and gives the statements they
    complete. -/
def takeAll (c : Collector) (number : Nat) : List (List Char) → List Statement × Collector
  | [] => ([], c)
  | line :: lines =>
    let (statement, c) := c.take number line
    let (statements, c) := c.takeAll (number + 1) lines
    (statement.toList ++ statements, c)

end Collector

/-- The statements of a list of lines. -/
def statementsOfLines (lines : List (List Char)) : List Statement :=
  let (statements, c) := ({} : Collector).takeAll 1 lines
  statements ++ c.flush.1.toList

/-- The statements of a script. -/
def statements (source : String) : List (Nat × String) :=
  (statementsOfLines (Text.lines source.toList)).map fun (number, text) =>
    (number, String.ofList text)

end Abacus.Script
