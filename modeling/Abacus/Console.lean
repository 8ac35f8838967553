import Abacus.Grammar.Standard
import Abacus.Script
import Abacus.Session.Run
import Abacus.Text.Grapheme

/-!
# The console

What is written when the statements of a script, or the lines of an interactive
session, are run one after the other.  Answers go to the standard output and
errors, with the number of the line they come from, to the standard error.  The
lines of an interactive session may hold backspaces, which correct what was typed
before them.
-/

namespace Abacus

/-- How deep evaluations may nest.  The limits on reads and calls stop endless
    recursion long before, except where a dereference goes around them. -/
def defaultBudget : Nat := 1000000

/-- What is written. -/
structure Output where
  out : String := ""
  err : String := ""

def Output.append (a b : Output) : Output := ⟨a.out ++ b.out, a.err ++ b.err⟩

instance : Append Output := ⟨Output.append⟩

namespace Console

/-- The sentence for an evaluation that uses up its budget. -/
def exhaustedMessage : String := "Evaluation nests too deeply."

def errorOutput (line : Nat) (message : String) : Output :=
  { err := s!"Error on line {line}: {message}\n" }

/-- Runs a statement: its answer, unless it fails, and what is written if it
    does. -/
def runStatement (s : Session) (statement : Nat × String) : Option Reply × Output × Session :=
  let (line, text) := statement
  match s.run defaultBudget text with
  | some (.ok reply, s) => (some reply, {}, s)
  | some (.error cause, s) => (none, errorOutput line cause.message, s)
  | none => (none, errorOutput line exhaustedMessage, s)

def showStatement (s : Session) (statement : Nat × String) : Output × Session :=
  let (reply, output, s) := runStatement s statement
  match reply with
  | some reply => (output ++ { out := reply.shown }, s)
  | none => (output, s)

def showAll (s : Session) : List (Nat × String) → Output
  | [] => {}
  | statement :: rest =>
    let (output, s) := showStatement s statement
    output ++ showAll s rest

/-- Runs statements and shows the last value only; `last` is the one before
    them. -/
def showLast (last : Option Number) (s : Session) : List (Nat × String) → Output
  | [] => { out := (Reply.value last).shown }
  | statement :: rest =>
    let (reply, output, s) := runStatement s statement
    let last := match reply with
      | some (.value (some a)) => some a
      | _ => last
    output ++ showLast last s rest

/-- Runs a script in a new session; either every answer is shown or the last value
    only. -/
def runScript (settings : Settings) (lastOnly : Bool) (source : String) : Output :=
  let s := { Session.start Grammar.standard with settings }
  let statements := Script.statements source
  if lastOnly then showLast none s statements else showAll s statements

/-! ## Interactive sessions -/

/-- An interactive session between two lines. -/
structure Dialogue where
  session : Session
  collector : Script.Collector := {}
  /-- How many lines have been read. -/
  lines : Nat := 0

def Dialogue.start (settings : Settings) : Dialogue :=
  { session := { Session.start Grammar.standard with settings } }

/-- Runs the statement that has been completed, if there is one. -/
def Dialogue.runCompleted (d : Dialogue) (statement : Option Script.Statement) :
    Output × Dialogue :=
  match statement with
  | none => ({}, d)
  | some (line, text) =>
    let (output, session) := showStatement d.session (line, String.ofList text)
    (output, { d with session })

/-- Takes a line as it is typed, with the backspaces that correct it. -/
def Dialogue.read (d : Dialogue) (line : List Char) : Output × Dialogue :=
  let number := d.lines + 1
  let (statement, collector) := d.collector.take number (Text.typed line)
  { d with collector, lines := number }.runCompleted statement

def Dialogue.close (d : Dialogue) : Output × Dialogue :=
  let (statement, collector) := d.collector.flush
  { d with collector }.runCompleted statement

def Dialogue.readAll (d : Dialogue) : List (List Char) → Output
  | [] => d.close.1
  | line :: rest =>
    let (output, d) := d.read line
    output ++ d.readAll rest

/-- An interactive session with everything that will be typed. -/
def runDialogue (settings : Settings) (input : String) : Output :=
  (Dialogue.start settings).readAll (Text.lines input.toList)

end Console

/-- Runs statements and gives the last value, or the first error with its line.
    There is no result if a statement uses up its budget. -/
def Session.evaluateAll (s : Session) (last : Value) :
    List (Nat × String) → Option (Except (Nat × LineError) Value)
  | [] => some (.ok last)
  | (line, text) :: rest =>
    match s.run defaultBudget text with
    | some (.ok (.value (some a)), s) => s.evaluateAll (some a) rest
    | some (.ok _, s) => s.evaluateAll last rest
    | some (.error cause, _) => some (.error (line, cause))
    | none => none

def Script.evaluate (source : String) : Option (Except (Nat × LineError) Value) :=
  (Session.start Grammar.standard).evaluateAll none (Script.statements source)

end Abacus
