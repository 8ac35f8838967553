import Abacus.Number.Basic

/-!
# Arithmetic

The four operations, floored division with its remainder, and the roundings to
an integer.  Division and remainder refuse a divisor that is zero, whatever its
representation.
-/

namespace Abacus.Number

/-- Applies `exact` to the terms of two exact numbers, and `approximate` to the
    floating-point numbers of any others. -/
def lift (exact : Int × Nat → Int × Nat → Except EvalError Number)
    (approximate : Float → Float → Float) (a b : Number) : Except EvalError Number :=
  match a.terms?, b.terms? with
  | some p, some q => exact p q
  | _, _ => .ok (.float (approximate a.toFloat b.toFloat))

def add : Number → Number → Except EvalError Number :=
  lift (fun (n, d) (m, e) => ofQuotient (n * e + m * d) (d * e)) (· + ·)

def sub : Number → Number → Except EvalError Number :=
  lift (fun (n, d) (m, e) => ofQuotient (n * e - m * d) (d * e)) (· - ·)

def mul : Number → Number → Except EvalError Number :=
  lift (fun (n, d) (m, e) => ofQuotient (n * m) (d * e)) (· * ·)

/-- Applies an operation unless the second number is zero. -/
def unlessZero (op : Number → Number → Except EvalError Number) (a b : Number) :
    Except EvalError Number :=
  if b.isZero then .error .divisionByZero else op a b

/-- The quotient, which is exact for exact numbers. -/
def div : Number → Number → Except EvalError Number :=
  unlessZero (lift (fun (n, d) (m, e) => ofQuotient (n * e) (d * m)) (· / ·))

/-- The quotient rounded down. -/
def floorDiv : Number → Number → Except EvalError Number :=
  unlessZero (lift (fun (n, d) (m, e) => .ok (.integer ((n * e).fdiv (d * m))))
    fun x y => (x / y).floor)

/-- The remainder of the quotient rounded down; it has the sign of the
    divisor. -/
def floorMod : Number → Number → Except EvalError Number :=
  unlessZero (lift (fun (n, d) (m, e) => ofQuotient ((n * e).fmod (m * d)) (d * e))
    fun x y => x - y * (x / y).floor)

def negate : Number → Number
  | .integer n => .integer (-n)
  | .fraction n d => .fraction (-n) d
  | .float x => .float (-x)

def abs : Number → Number
  | .integer n => .integer n.natAbs
  | .fraction n d => .fraction n.natAbs d
  | .float x => .float x.abs

/-- -1, 0 or 1, as the number is negative, neither, or positive. -/
def sign (a : Number) : Number :=
  match a.compare? (.integer 0) with
  | some .lt => .integer (-1)
  | some .gt => .integer 1
  | _ => .integer 0

/-- The largest integer that is not greater. -/
def floor : Number → Number
  | .integer n => .integer n
  | .fraction n d => .integer (n.fdiv d)
  | .float x => .float x.floor

/-- The smallest integer that is not less. -/
def ceil : Number → Number
  | .integer n => .integer n
  | .fraction n d => .integer (-((-n).fdiv d))
  | .float x => .float x.ceil

/-- The nearest integer; a half goes away from zero. -/
def round : Number → Number
  | .integer n => .integer n
  | .fraction n d =>
    let magnitude : Int := ((2 * n.natAbs + d) / (2 * d) : Nat)
    .integer (if n < 0 then -magnitude else magnitude)
  | .float x => .float x.round

end Abacus.Number
