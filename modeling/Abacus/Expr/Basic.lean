import Abacus.Builtin
import Abacus.Grammar.Rule

/-!
# Expressions

An expression tree refers to variables and functions by handles.  A handle never
changes; what a variable stands for and what a function does at the moment is
kept in a store, so trees that share a variable see every change of it.
-/

namespace Abacus

/-- Whether a named cell may be assigned to. -/
inductive CellKind where
  | variable
  | constant
  deriving DecidableEq, Repr

/-- The handle of a named cell.  Cells with different numbers are different, even
    if their names are equal. -/
structure Cell where
  id : Nat
  name : String
  kind : CellKind
  deriving DecidableEq, Repr

/-- The handle of a function defined by its user. -/
structure UserFunction where
  id : Nat
  name : String
  /-- The cells that hold the arguments during a call. -/
  parameters : List Cell
  deriving DecidableEq, Repr

/-- The handle of a function. -/
inductive Function where
  | builtin (builtin : Builtin)
  | user (handle : UserFunction)
  deriving DecidableEq, Repr

namespace Function

def name : Function → String
  | .builtin b => b.name
  | .user u => u.name

def arity : Function → Nat
  | .builtin b => b.arity
  | .user u => u.parameters.length

/-- A function is known by its name and its number of arguments. -/
def key (f : Function) : String × Nat := (f.name, f.arity)

def isBuiltin : Function → Bool
  | .builtin _ => true
  | .user _ => false

/-- The cells of the parameters; a builtin function has none. -/
def parameters : Function → List Cell
  | .builtin _ => []
  | .user u => u.parameters

/-- The name with the parameters, or with the arity of a builtin function. -/
def signature : Function → String
  | .builtin b =>
    let name := b.name
    let arity := b.arity
    s!"{name}/{arity}"
  | .user u =>
    let name := u.name
    let parameters := ", ".intercalate (u.parameters.map Cell.name)
    s!"{name}({parameters})"

end Function

/-- Expression trees. -/
inductive Expr where
  /-- A fixed value. -/
  | literal (value : Value)
  /-- What a cell stands for. -/
  | cell (cell : Cell)
  /-- An operator between two operands; a missing operand is void. -/
  | binary (operator : Operator) (left right : Expr)
  /-- A modifier on one side of an operand. -/
  | unary (modifier : Modifier) (operand : Expr)
  /-- A function applied to arguments. -/
  | call (function : Function) (arguments : List Expr)
  /-- Parentheses that were written. -/
  | parens (inner : Expr)
  /-- Two branches that wait for a condition. -/
  | branches (whenTrue whenFalse : Expr)

namespace Expr

/-- The expression without a value. -/
def void : Expr := .literal none

instance : Inhabited Expr := ⟨void⟩

/-- The value of a literal, seen through parentheses. -/
def literal? : Expr → Option Value
  | .literal v => some v
  | .parens inner => inner.literal?
  | _ => none

/-- The value that an expression has without being evaluated: that of a literal,
    and void for everything else. -/
def frozenValue (e : Expr) : Value := e.literal?.getD none

/-- Whether an expression is the void literal itself. -/
def isVoid : Expr → Bool
  | .literal none => true
  | _ => false

/-- Whether an expression is a variable, seen through parentheses. -/
def isVariable : Expr → Bool
  | .cell c => c.kind = .variable
  | .parens inner => inner.isVariable
  | _ => false

/-- Whether one evaluation step of an expression evaluates no operand and calls
    no function. -/
def isInert : Expr → Bool
  | .literal _ | .branches _ _ => true
  | .cell _ | .call _ _ => false
  | .parens inner => inner.isInert
  | .binary operator _ _ => operator.isDeferred
  | .unary modifier _ => modifier.isDeferred

end Expr

end Abacus
