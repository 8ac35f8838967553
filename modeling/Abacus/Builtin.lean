import Abacus.Number.Arithmetic
import Abacus.Number.Power

/-!
# Builtin functions

The functions that every session knows.  A void argument gives a void result,
except that `assert` refuses it.
-/

namespace Abacus

/-- The builtin functions. -/
inductive Builtin where
  | abs
  | sign
  | floor
  | ceil
  | round
  | sqrt
  | min
  | max
  | assert
  deriving DecidableEq, Repr

namespace Builtin

/-- Every builtin function. -/
def all : List Builtin := [.abs, .sign, .floor, .ceil, .round, .sqrt, .min, .max, .assert]

def name : Builtin → String
  | .abs => "abs"
  | .sign => "sign"
  | .floor => "floor"
  | .ceil => "ceil"
  | .round => "round"
  | .sqrt => "sqrt"
  | .min => "min"
  | .max => "max"
  | .assert => "assert"

def arity : Builtin → Nat
  | .min | .max => 2
  | _ => 1

/-- The first number if it compares with the second one as `order` says, and
    otherwise the second one; void if they have no order. -/
def pick (order : Ordering) (a b : Number) : Value :=
  (a.compare? b).map fun o => if o = order then a else b

/-- Passes a truth value of 1 on and refuses everything else. -/
def check (v : Value) : Except EvalError Value :=
  if v.bind Number.truth? = some true then .ok v else .error .assertionFailed

/-- The result for as many arguments as the arity says. -/
def apply : Builtin → List Value → Except EvalError Value
  | .abs, [v] => .ok (v.map Number.abs)
  | .sign, [v] => .ok (v.map Number.sign)
  | .floor, [v] => .ok (v.map Number.floor)
  | .ceil, [v] => .ok (v.map Number.ceil)
  | .round, [v] => .ok (v.map Number.round)
  | .sqrt, [some a] => a.sqrt.map some
  | .min, [some a, some b] => .ok (pick .lt a b)
  | .max, [some a, some b] => .ok (pick .gt a b)
  | .assert, [v] => check v
  | _, _ => .ok none

end Builtin

end Abacus
