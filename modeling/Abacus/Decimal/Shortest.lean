/-!
# The shortest decimal of a binary fraction

A binary fraction `m * 2 ^ q` with a bounded mantissa stands for every real
number that rounds to it.  Among the decimals in that interval `shortest` finds
one with the fewest digits, and of those the nearest to the fraction itself.  A
decimal with few digits is a point of a coarse grid of multiples of a power of
ten, so the search starts on a grid fine enough to have a point in the interval
and coarsens it for as long as a point remains.
-/

namespace Abacus.Decimal

/-- The real numbers that round to a positive binary fraction. -/
structure Interval where
  /-- The fraction is `mantissa * 2 ^ exponent`. -/
  mantissa : Nat
  exponent : Int
  /-- Whether the next smaller fraction is only half as far as the next larger
      one, as it is below a power of two. -/
  narrowBelow : Bool

namespace Interval

/-- The fraction and the two ends, in units of a quarter of the last place. -/
def centre (i : Interval) : Nat := 4 * i.mantissa

def lower (i : Interval) : Nat := 4 * i.mantissa - if i.narrowBelow then 1 else 2

def upper (i : Interval) : Nat := 4 * i.mantissa + 2

/-- A tie rounds to an even mantissa, so only then do the ends belong. -/
def closed (i : Interval) : Bool := i.mantissa % 2 = 0

/-- The unit of the ends and the step `10 ^ e` of a grid, brought to a common
    denominator. -/
def scale (i : Interval) (e : Int) : Nat × Nat :=
  let s := i.exponent - 2
  (Nat.pow 2 s.toNat * Nat.pow 10 (-e).toNat, Nat.pow 10 e.toNat * Nat.pow 2 (-s).toNat)

/-- Whether the multiple `d * 10 ^ e` lies in the interval. -/
def hasPoint (i : Interval) (e : Int) (d : Nat) : Bool :=
  let (unit, step) := i.scale e
  if i.closed then i.lower * unit ≤ d * step && d * step ≤ i.upper * unit
  else i.lower * unit < d * step && d * step < i.upper * unit

/-- The multiple of `10 ^ e` in the interval that is nearest to the fraction; of
    two equally near ones the larger. -/
def nearestPoint? (i : Interval) (e : Int) : Option Nat :=
  let (unit, step) := i.scale e
  -- No other multiple is nearer than these two.
  let below := i.centre * unit / step
  let above := below + 1
  match i.hasPoint e below, i.hasPoint e above with
  | true, true =>
    some (if i.centre * unit - below * step < above * step - i.centre * unit then below else above)
  | true, false => some below
  | false, true => some above
  | false, false => none

/-- The exponent of a grid whose step is less than half of the last place, so
    that a multiple right above the fraction lies in the interval. -/
def fineExponent (i : Interval) : Int :=
  let half := i.exponent - 1
  (if half ≥ 0 then half * 3 / 10 else half / 3) - 1

/-- Coarsens the grid, at most `steps` times, while the interval has a point. -/
def coarsen (i : Interval) : (steps : Nat) → (digits : Nat) → (exponent : Int) → Nat × Int
  | 0, d, e => (d, e)
  | steps + 1, d, e =>
    match i.nearestPoint? (e + 1) with
    | some d' => i.coarsen steps d' (e + 1)
    | none => (d, e)

/-- More steps than a binary fraction of eleven exponent bits can take. -/
def maxSteps : Nat := 400

/-- The shortest decimal `d * 10 ^ e` in the interval, as `(d, e)`. -/
def shortest (i : Interval) : Nat × Int :=
  match i.nearestPoint? i.fineExponent with
  | some d => i.coarsen maxSteps d i.fineExponent
  | none => (i.mantissa, 0)

end Interval

end Abacus.Decimal
