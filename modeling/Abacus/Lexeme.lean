import Abacus.Number.Basic

/-!
# Lexemes

A lexeme is what a whole text without spaces can be on its own: an integer, a
real number or a name.  `Lexeme.ofText?` never looks at a part of a text, so a
text with two lexemes in it, such as `2x`, is none.
-/

namespace Abacus

/-- An unsigned number or a name. -/
inductive Lexeme where
  | integer (n : Nat)
  | real (x : Float)
  | name (text : String)

namespace Lexeme

/-- The characters a name can start with. -/
def startsName (c : Char) : Bool := c.isAlpha || c = '_'

/-- The characters a name can go on with. -/
def continuesName (c : Char) : Bool := startsName c || c.isDigit

/-- Whether a text is a name: ASCII letters, digits and underscores, no digit in
    front. -/
def isName : List Char → Bool
  | [] => false
  | c :: rest => startsName c && rest.all continuesName

/-- Whether a text is a non-empty run of ASCII digits. -/
def isDigits (text : List Char) : Bool := !text.isEmpty && text.all Char.isDigit

/-- The exponent that a text writes: an optional sign and digits. -/
def signedExponent? : List Char → Option Int
  | '-' :: text => if isDigits text then some (-(Decimal.ofDigits text : Int)) else none
  | '+' :: text => if isDigits text then some (Decimal.ofDigits text) else none
  | text => if isDigits text then some (Decimal.ofDigits text) else none

/-- The exponent in what follows a mantissa: nothing, or a mark and the
    exponent. -/
def exponent? : List Char → Option Int
  | [] => some 0
  | 'e' :: text => signedExponent? text
  | 'E' :: text => signedExponent? text
  | _ => none

/-- The number with the digits `whole` before and `places` after its point. -/
def scaled (whole places : List Char) (exponent : Int) : Float :=
  Binary64.ofDecimal (Decimal.ofDigits (whole ++ places)) (exponent - places.length)

/-- Reads a number: digits alone are an integer, and a point or an exponent
    makes it real.  A point needs a digit on one side. -/
def number? (text : List Char) : Option Lexeme :=
  let whole := text.takeWhile Char.isDigit
  match text.dropWhile Char.isDigit with
  | [] => if whole.isEmpty then none else some (.integer (Decimal.ofDigits whole))
  | '.' :: rest =>
    let places := rest.takeWhile Char.isDigit
    if whole.isEmpty && places.isEmpty then none
    else (exponent? (rest.dropWhile Char.isDigit)).map fun e => .real (scaled whole places e)
  | rest =>
    if whole.isEmpty then none else (exponent? rest).map fun e => .real (scaled whole [] e)

/-- The lexeme that a whole text is. -/
def ofText? (text : List Char) : Option Lexeme :=
  if isName text then some (.name (String.ofList text)) else number? text

/-- The number that a lexeme writes. -/
def toNumber? : Lexeme → Option Number
  | .integer n => some (.integer n)
  | .real x => some (.float x)
  | .name _ => none

end Lexeme

/-- The number that a whole text writes without a sign. -/
def Number.ofText? (text : List Char) : Option Number :=
  (Lexeme.ofText? text).bind Lexeme.toNumber?

/-- The number that a whole text writes, or the text as the cause why not. -/
def Number.ofText (text : String) : Except ParseError Number :=
  match Number.ofText? text.toList with
  | some a => .ok a
  | none => .error (.unrecognized text)

end Abacus
