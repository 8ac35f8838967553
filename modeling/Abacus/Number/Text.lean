import Abacus.Number.Basic

/-!
# The text of a number

Integers are written in base ten, fractions as two integers with a slash, and
floating-point numbers as `Binary64.text` writes them, so the text shows the
kind of the number.
-/

namespace Abacus

namespace Decimal

/-- The decimal text of an integer. -/
def intText (n : Int) : List Char :=
  if n < 0 then '-' :: digits n.natAbs else digits n.natAbs

end Decimal

namespace Number

/-- The text of a number. -/
def text : Number → String
  | .integer n => String.ofList (Decimal.intText n)
  | .fraction n d => String.ofList (Decimal.intText n ++ '/' :: Decimal.digits d)
  | .float x => Binary64.text x

/-- Whether the text is a single operand: it has no sign and no slash. -/
def isAtomic : Number → Bool
  | .fraction _ _ => false
  | a => !a.isNegative

end Number

/-- The text of a value; the absent one is called `void`. -/
def Value.text : Value → String
  | some a => a.text
  | none => "void"

end Abacus
