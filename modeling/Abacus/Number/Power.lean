import Abacus.Number.Text

/-!
# Powers, roots and factorials

An exact base with an integer exponent has an exact power, within a bound on its
size.  A square root is exact if numerator and denominator are squares.
-/

namespace Abacus

/-- The bound on the bits of an exact power. -/
def powerBitsLimit : Nat := Nat.pow 2 24

/-- The bound on the exponent of an exact power. -/
def exponentLimit : Nat := Nat.pow 2 32 - 1

/-- The bound on the argument of a factorial. -/
def factorialLimit : Nat := 100000

/-- The number of binary digits of a natural number; zero has none. -/
def bitLength (n : Nat) : Nat := if n = 0 then 0 else n.log2 + 1

/-- An exponent that gives the same power of `base` and can be computed with.
    The bases 0, 1 and -1 have no other powers than those of exponents up to 2;
    other bases refuse powers beyond the bounds, and negative exponents, which
    give no integer. -/
def boundedExponent (base exponent : Int) : Except EvalError Nat :=
  if base.natAbs ≤ 1 then
    .ok (if exponent = 0 then 0 else if exponent % 2 = 1 then 1 else 2)
  else if exponent < 0 || exponent > exponentLimit ||
      bitLength base.natAbs * exponent.natAbs > powerBitsLimit then
    .error .tooLarge
  else .ok exponent.natAbs

namespace Root

/-- Newton's iteration for a square root: improves a guess that is not too small
    until it stops falling.  A falling guess needs no more steps than its
    value. -/
def improve (n : Nat) : (steps : Nat) → (guess : Nat) → Nat
  | 0, guess => guess
  | steps + 1, guess =>
    let next := (guess + n / guess) / 2
    if next < guess then improve n steps next else guess

/-- The square root rounded down. -/
def floor (n : Nat) : Nat :=
  if n ≤ 1 then n
  else
    let guess := Nat.pow 2 (n.log2 / 2 + 1)
    improve n guess guess

/-- The square root of a square. -/
def ofSquare? (n : Nat) : Option Nat :=
  let root := floor n
  if root * root = n then some root else none

end Root

/-- The product of `count` factors that rise by one, times `product`. -/
def risingProduct (product : Nat) (factor : Nat) : (count : Nat) → Nat
  | 0 => product
  | count + 1 => risingProduct (product * factor) (factor + 1) count

/-- The factorial of an integer within the bound. -/
def factorial (n : Int) : Except EvalError Nat :=
  if n < 0 then .error (.factorialDomain (String.ofList (Decimal.intText n)))
  else if n.natAbs > factorialLimit then .error .tooLarge
  else .ok (risingProduct 1 1 n.natAbs)

namespace Number

/-- The power of an exact number with the given terms. -/
def exactPower (n : Int) (d : Nat) (exponent : Int) : Except EvalError Number := do
  if exponent < 0 then
    if n = 0 then throw .divisionByZero
    -- The reciprocal: numerator and denominator change places.
    let up ← boundedExponent n (-exponent)
    let down ← boundedExponent d (-exponent)
    ofQuotient (Int.pow d down) (Int.pow n up)
  else
    let up ← boundedExponent n exponent
    let down ← boundedExponent d exponent
    ofQuotient (Int.pow n up) (Int.pow d down)

/-- The power, which is exact for an exact base and an integer exponent. -/
def pow (a b : Number) : Except EvalError Number :=
  match a, b with
  | .integer n, .integer exponent => exactPower n 1 exponent
  | .fraction n d, .integer exponent => exactPower n d exponent
  | _, _ => .ok (.float (a.toFloat.pow b.toFloat))

/-- The square root, which is exact for the squares of exact numbers. -/
def sqrt (a : Number) : Except EvalError Number :=
  if a.isNegative then
    let operand := a.text
    .error (.outsideDomain s!"square root of negative value {operand}")
  else
    let exactRoot? := do
      let (n, d) ← a.terms?
      let up ← Root.ofSquare? n.natAbs
      let down ← Root.ofSquare? d
      pure (up, down)
    match exactRoot? with
    | some (up, down) => ofQuotient up down
    | none => .ok (.float a.toFloat.sqrt)

/-- The factorial of a number that equals a natural number. -/
def factorial (a : Number) : Except EvalError Number :=
  match a.toInt? with
  | some n => (Abacus.factorial n).map fun m => .integer m
  | none => .error (.factorialDomain a.text)

end Number

end Abacus
