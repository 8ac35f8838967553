import Abacus.Eval.Step
import Abacus.Parse.Parser

/-!
# Sessions

A session is what lines are run against: a grammar, the cells and functions that
names refer to, and the store that says what they stand for.  Four constants
belong to every session: `pi`, `e`, `void`, and `ans`, which stands for the
latest value.
-/

namespace Abacus

/-- What a user can choose. -/
structure Settings where
  /-- A line that starts with this text is a command; without it there are no
      commands. -/
  commandMark : String := ":"
  /-- Whether a line that starts with an operator continues from the latest
      value. -/
  continues : Bool := true
  deriving DecidableEq, Repr

/-- The answer to a line. -/
inductive Reply where
  /-- An expression was evaluated. -/
  | value (v : Value)
  /-- A command answered. -/
  | message (text : String)
  /-- The line was blank. -/
  | nothing

/-- What is shown for an answer: its text on a line of its own, and nothing for a
    void value and a blank line. -/
def Reply.shown : Reply → String
  | .value (some a) => a.text ++ "\n"
  | .message text => text ++ "\n"
  | .value none | .nothing => ""

/-- What lines are run against. -/
structure Session where
  grammar : Grammar
  settings : Settings := {}
  /-- The cells of names. -/
  names : Table String Cell
  /-- The functions by name and number of arguments. -/
  functions : Table (String × Nat) Function
  /-- What cells and functions stand for. -/
  store : Store
  /-- No cell and no function has this number or a larger one. -/
  fresh : Nat

namespace Session

/-- The cells of the constants. -/
def piCell : Cell := ⟨0, "pi", .constant⟩

def eCell : Cell := ⟨1, "e", .constant⟩

def voidCell : Cell := ⟨2, "void", .constant⟩

/-- The cell of the latest value. -/
def ansCell : Cell := ⟨3, "ans", .constant⟩

/-- The constants with what they stand for at first. -/
def constants : List (Cell × Expr) := [
  (piCell, .literal (some (.float 3.141592653589793))),
  (eCell, .literal (some (.float 2.718281828459045))),
  (voidCell, .void),
  (ansCell, .void)]

/-- The builtin functions by name and number of arguments. -/
def builtins : Table (String × Nat) Function :=
  .ofList (Builtin.all.map fun b => ((b.name, b.arity), .builtin b))

/-- A session at its start. -/
def start (g : Grammar) : Session where
  grammar := g
  names := .ofList (constants.map fun (c, _) => (c.name, c))
  functions := builtins
  store := Store.defineAll {} constants
  fresh := constants.length

def latest (s : Session) : Value := (s.store.definition ansCell).frozenValue

/-- Makes a present value the latest one. -/
def remember (s : Session) : Value → Session
  | some a => { s with store := s.store.define ansCell (.literal (some a)) }
  | none => s

/-- What a line is parsed against. -/
def scope (s : Session) : Parse.Scope where
  grammar := s.grammar
  functions := s.functions
  names := s.names
  leading := if s.settings.continues then some ansCell else none
  fresh := s.fresh

/-- Adds the variables that a parse mentioned for the first time. -/
def withCreated (s : Session) (created : Table String Cell) : Session :=
  { s with names := s.names.insertAll created, fresh := s.fresh + created.size }

/-- Parses a line, which may add variables. -/
def parse (s : Session) (line : String) : Except ParseError (Option Expr × Session) := do
  let parsed ← Parse.parse s.scope line
  return (parsed.expr, s.withCreated parsed.created)

/-- Runs an evaluation on the store of a session. -/
def evaluate {α : Type} (s : Session) (m : Eval α) : Option (Except EvalError α × Session) :=
  (m.runOn s.store).map fun (result, store) => (result, { s with store })

end Session

end Abacus
