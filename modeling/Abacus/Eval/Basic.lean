import Abacus.Expr.Text
import Abacus.Store

/-!
# Evaluations

An evaluation works on a store and ends with a result or an error; the store that
it leaves behind counts in both cases.  An evaluation can also use up its budget,
and then it has neither.
-/

namespace Abacus

/-- A computation on the store that may fail, and that may run out of budget. -/
abbrev Eval := ExceptT EvalError (StateT Store Option)

/-- A way to evaluate expressions.  What an action does is defined for any of
    them; an evaluation passes itself on with a smaller budget. -/
abbrev Evaluator := Expr → Eval Value

namespace Eval

variable {α : Type}

/-- The outcome and the final store of an evaluation, unless its budget is used
    up. -/
def runOn (m : Eval α) (s : Store) : Option (Except EvalError α × Store) := m s

/-- The evaluation whose budget is used up. -/
def exhausted : Eval α := fun _ => none

/-- A result or error that does not depend on the store. -/
def ofExcept : Except EvalError α → Eval α
  | .ok a => pure a
  | .error e => throw e

/-- What a cell stands for. -/
def definition (c : Cell) : Eval Expr := do return (← get).definition c

/-- Changes the store after an evaluation, whether it fails or not. -/
def thenAlways (m : Eval α) (change : Store → Store) : Eval α :=
  fun s => (m s).map fun (result, s) => (result, change s)

/-- The greatest number of reads of one cell under way. -/
def readLimit : Nat := 128

def callLimit : Nat := 128

/-- Counts a read of a cell for as long as the evaluation lasts. -/
def reading (c : Cell) (m : Eval α) : Eval α := do
  if (← get).readDepth c ≥ readLimit then throw (.tooDeep c.name)
  modify fun s => s.enterRead c
  thenAlways m fun s => s.leaveRead c

/-- Counts a call of a function for as long as the evaluation lasts, while its
    parameters stand for the arguments; afterwards they stand again for what they
    stood for before. -/
def calling (u : UserFunction) (arguments : List Value) (m : Eval α) : Eval α := do
  let before ← get
  if before.callDepth u ≥ callLimit then throw (.tooDeep u.name)
  modify fun s => (s.enterCall u).defineAll (u.parameters.zip (arguments.map Expr.literal))
  -- A call inside of a call of the same function borrows the same cells.
  let saved := u.parameters.map fun c => (c, before.definition c)
  thenAlways m fun s => (s.defineAll saved).leaveCall u

end Eval

/-- Calls a function with evaluated arguments. -/
def Function.call (eval : Evaluator) (f : Function) (arguments : List Value) : Eval Value := do
  if arguments.length ≠ f.arity then
    let name := f.name
    let arity := f.arity
    let count := arguments.length
    throw (.outsideDomain s!"{name} expects {arity} argument(s), got {count}")
  match f with
  | .builtin b => Eval.ofExcept (b.apply arguments)
  | .user u => Eval.calling u arguments do eval ((← get).body u)

/-- Makes a variable, seen through parentheses, stand for a definition. -/
def Expr.assign : (target : Expr) → (definition : Expr) → Eval Unit
  | .cell c, definition =>
    if c.kind = .variable then modify fun s => s.define c definition
    else throw (.notAssignable c.name)
  | .parens inner, definition => inner.assign definition
  | target, _ => throw (.notAssignable target.text)

end Abacus
