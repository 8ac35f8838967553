import Abacus.Binary64
import Abacus.Error

/-!
# Numbers

A number is an exact integer, an exact fraction or a floating-point number.
Exact numbers stay exact for as long as an operation has an exact result; with a
floating-point operand it works on floating-point numbers.  A fraction that an
operation returns is `Reduced`: it is in lowest terms and no integer.
-/

namespace Abacus

/-- An exact integer, an exact fraction or a floating-point number. -/
inductive Number where
  | integer (n : Int)
  | fraction (numerator : Int) (denominator : Nat)
  | float (x : Float)

/-- What an expression evaluates to: a number, or nothing, which is called
    void. -/
abbrev Value := Option Number

namespace Number

instance : Inhabited Number := ⟨.integer 0⟩

/-- The number of a truth value: 1 or 0. -/
def ofBool (b : Bool) : Number := .integer (if b then 1 else 0)

/-- Whether a fraction is in lowest terms with a denominator above one.  The
    other numbers always count as reduced. -/
def Reduced : Number → Prop
  | .fraction n d => 1 < d ∧ n.gcd d = 1
  | _ => True

/-- The exact quotient of two integers in lowest terms. -/
def ofQuotient (n d : Int) : Except EvalError Number :=
  if d = 0 then .error .divisionByZero
  else
    let common := n.gcd d
    let numerator := n / common * d.sign
    let denominator := d.natAbs / common
    .ok (if denominator = 1 then .integer numerator else .fraction numerator denominator)

/-- Numerator and denominator of an exact number. -/
def terms? : Number → Option (Int × Nat)
  | .integer n => some (n, 1)
  | .fraction n d => some (n, d)
  | .float _ => none

/-- The nearest floating-point number.  A fraction is the quotient of its
    rounded terms. -/
def toFloat : Number → Float
  | .integer n => Binary64.ofInt n
  | .fraction n d => Binary64.ofInt n / Binary64.ofInt d
  | .float x => x

/-- The integer that a number equals, if it equals one. -/
def toInt? : Number → Option Int
  | .integer n => some n
  | .fraction _ _ => none
  | .float x => Binary64.toInt? x

def isZero : Number → Bool
  | .integer n => n = 0
  | .fraction _ _ => false
  | .float x => x == 0.0

/-- The truth value of a number: 0 is false, 1 is true, and no other number is
    either. -/
def truth? (a : Number) : Option Bool :=
  match a.toInt? with
  | some 0 => some false
  | some 1 => some true
  | _ => none

/-! ## Comparison -/

/-- The order of two floating-point numbers; there is none if one is `NaN`. -/
def compareFloat? (x y : Float) : Option Ordering :=
  if x < y then some .lt
  else if x == y then some .eq
  else if y < x then some .gt
  else none

/-- The order of two numbers by value: exact numbers are compared exactly, all
    others as floating-point numbers. -/
def compare? (a b : Number) : Option Ordering :=
  match a.terms?, b.terms? with
  | some (n, d), some (m, e) => some (compare (n * e) (m * d))
  | _, _ => compareFloat? a.toFloat b.toFloat

/-- Whether two numbers have the same value. -/
def sameValue (a b : Number) : Bool := a.compare? b = some .eq

/-- Whether two numbers are of one kind and have the same value.  Here `NaN` is the
    same as itself. -/
def same : Number → Number → Bool
  | .integer n, .integer m => n = m
  | .fraction n d, .fraction m e => n = m && d = e
  | .float x, .float y => x == y || (x.isNaN && y.isNaN)
  | _, _ => false

def isNegative (a : Number) : Bool := a.compare? (.integer 0) = some .lt

end Number

end Abacus
