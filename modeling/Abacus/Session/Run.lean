import Abacus.Session.Command

/-!
# Running lines

A line is a command or an expression.  What an expression evaluates to becomes
the latest value.  A line that does not parse has no effect; a command and an
evaluation that fail keep the changes they have made.
-/

namespace Abacus.Session

/-- The command in a line, if it is one. -/
def command? (s : Session) (line : String) : Option (List Char) :=
  match s.settings.commandMark.toList with
  | [] => none
  | mark => Text.dropPrefix? mark (Text.trimStart line.toList)

/-- Evaluates an expression; `budget` bounds how deep evaluations nest. -/
def runExpr (budget : Nat) (s : Session) (e : Expr) :
    Option (Except LineError Reply × Session) := do
  let (result, s) ← s.evaluate (e.eval budget)
  match result with
  | .ok v => return (.ok (.value v), s.remember v)
  | .error cause => return (.error (.eval cause), s)

/-- Runs a line.  There is no result if the budget of the evaluation is used
    up. -/
def run (budget : Nat) (s : Session) (line : String) :
    Option (Except LineError Reply × Session) :=
  match s.command? line with
  | some text =>
    match (runCommand text).runOn s with
    | (.ok message, s) => some (.ok (.message message), s)
    | (.error cause, s) => some (.error (.command cause), s)
  | none =>
    match s.parse line with
    | .ok (some e, s) => s.runExpr budget e
    | .ok (none, s) => some (.ok .nothing, s)
    | .error cause => some (.error (.parse cause), s)

end Abacus.Session
