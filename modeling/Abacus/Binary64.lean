import Abacus.Decimal.Digits
import Abacus.Decimal.Shortest

/-!
# Binary64 numbers

What the rest of the library needs to know about floating-point numbers: the
exact value behind the bits, the integer a number equals, the number a decimal
reads as, and the text a number is shown as.  The text has the fewest digits
that read back to the number, it is always positional, and it always has a
point or is one of `NaN`, `inf` and `-inf`.
-/

namespace Abacus.Binary64

open Decimal (digits)

/-- What the bits of a number say. -/
inductive Shape where
  | notANumber
  | infinite (negative : Bool)
  /-- The number is `mantissa * 2 ^ exponent` with the given sign. -/
  | finite (negative : Bool) (mantissa : Nat) (exponent : Int)
  deriving DecidableEq, Repr

/-- The exponent of the last place of the smallest numbers. -/
def minExponent : Int := -1074

def shape (x : Float) : Shape :=
  let bits := x.toBits.toNat
  let negative := decide (bits / Nat.pow 2 63 = 1)
  let biased : Nat := bits / Nat.pow 2 52 % 2048
  let fraction : Nat := bits % Nat.pow 2 52
  if biased = 2047 then if fraction = 0 then .infinite negative else .notANumber
  else if biased = 0 then .finite negative fraction minExponent
  else .finite negative (Nat.pow 2 52 + fraction) ((biased : Int) + (minExponent - 1))

/-- A sign put in front of a natural number. -/
def signed (negative : Bool) (n : Nat) : Int := if negative then -(n : Int) else n

def toInt? (x : Float) : Option Int :=
  match shape x with
  | .finite negative mantissa exponent =>
    if exponent ≥ 0 then some (signed negative (mantissa * Nat.pow 2 exponent.toNat))
    else
      let unit := Nat.pow 2 (-exponent).toNat
      if mantissa % unit = 0 then some (signed negative (mantissa / unit)) else none
  | _ => none

/-- The number nearest to an integer, a tie going to the even one; infinite
    beyond the largest number. -/
def ofInt (n : Int) : Float := Float.ofInt n

/-- The number nearest to `mantissa * 10 ^ exponent`.  Decimals beyond the
    largest and below the smallest number are recognised by their length, so no
    huge power is ever computed for them. -/
def ofDecimal (mantissa : Nat) (exponent : Int) : Float :=
  let magnitude : Int := exponent + (digits mantissa).length
  if mantissa = 0 || magnitude < -400 then 0.0
  else if magnitude > 400 then 1.0 / 0.0
  else Float.ofScientific mantissa (exponent < 0) exponent.natAbs

/-! ## Text -/

/-- The positional text of `d * 10 ^ e`, with at least one digit on each side of
    the point. -/
def positional (d : Nat) (e : Int) : List Char :=
  let text := digits d
  if e ≥ 0 then text ++ List.replicate e.toNat '0' ++ ['.', '0']
  else
    let places := (-e).toNat
    if places < text.length then
      text.take (text.length - places) ++ '.' :: text.drop (text.length - places)
    else ['0', '.'] ++ List.replicate (places - text.length) '0' ++ text

def magnitudeText (mantissa : Nat) (exponent : Int) : List Char :=
  if mantissa = 0 then ['0', '.', '0']
  else
    let narrowBelow := mantissa = Nat.pow 2 52 && exponent ≠ minExponent
    let (d, e) := Decimal.Interval.shortest ⟨mantissa, exponent, narrowBelow⟩
    positional d e

def text (x : Float) : String :=
  match shape x with
  | .notANumber => "NaN"
  | .infinite negative => if negative then "-inf" else "inf"
  | .finite negative mantissa exponent =>
    String.ofList ((if negative then ['-'] else []) ++ magnitudeText mantissa exponent)

end Abacus.Binary64
