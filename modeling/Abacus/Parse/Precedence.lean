import Abacus.Parse.Item

/-!
# Grouping by precedence

A line of items with decided roles is grouped tier by tier, loosest first.  The
operators of a tier cut the line into operands, which the tighter tiers group;
the modifiers of a tier take the items up to a symbol that does not bind tighter
and become one operand with them.
-/

namespace Abacus.Parse

/-- An item that is not grouped yet, or a grouped operand. -/
inductive Part where
  | item (i : Item)
  | grouped (e : Expr)

namespace Part

/-- The operator of tier `row` that a part is. -/
def operator? (row : Nat) : Part → Option Operator
  | .item (.operator role) => if role.row = row then some role.member else none
  | _ => none

/-- The modifier of tier `row` on a side that a part is. -/
def modifier? (row : Nat) (side : Side) : Part → Option Modifier
  | .item (.before role) => if side = .before ∧ role.row = row then some role.member else none
  | .item (.after role) => if side = .after ∧ role.row = row then some role.member else none
  | _ => none

/-- Whether a part ends the operand of a modifier of tier `row`: an operator or
    a modifier on the other side that does not bind tighter. -/
def ends (row : Nat) (side : Side) : Part → Bool
  | .item (.operator role) => role.row ≤ row
  | .item (.before role) => side = .after && role.row ≤ row
  | .item (.after role) => side = .before && role.row ≤ row
  | _ => false

def itemText? : Part → Option String
  | .item i => some i.text
  | .grouped _ => none

end Part

/-- The items among some parts, as an error shows them. -/
def shownItems (parts : List Part) : String :=
  " ".intercalate (parts.filterMap Part.itemText?)

/-- Cuts parts at the operators of tier `row`: the parts before the first one,
    and each operator with the parts behind it. -/
def cutAt (row : Nat) : List Part → List Part × List (Operator × List Part)
  | [] => ([], [])
  | p :: rest =>
    let (segment, more) := cutAt row rest
    match p.operator? row with
    | some o => ([], (o, segment) :: more)
    | none => (p :: segment, more)

/-- Folds a chain of operands from the left. -/
def foldLeft (first : Expr) (rest : List (Operator × Expr)) : Expr :=
  rest.foldl (fun left (o, right) => .binary o left right) first

/-- Folds a chain of operands from the right. -/
def foldRight (first : Expr) : List (Operator × Expr) → Expr
  | [] => first
  | (o, e) :: rest => .binary o first (foldRight e rest)

/-- Folds a chain of operands. -/
def fold : Associativity → Expr → List (Operator × Expr) → Expr
  | .left => foldLeft
  | .right => foldRight

/-- Applies a modifier to its operand, which must not be empty; `inner` groups
    it. -/
def modify (inner : List Part → Except ParseError Expr) (m : Modifier) (operand : List Part) :
    Except ParseError Part :=
  if operand.isEmpty then .error (.operandExpected m.symbol)
  else (inner operand).map fun e => .grouped (.unary m e)

/-- Groups the modifiers before operands of tier `row`, the last one first. -/
def groupBefore (inner : List Part → Except ParseError Expr) (row : Nat) :
    List Part → Except ParseError (List Part)
  | [] => .ok []
  | p :: rest => do
    let rest ← groupBefore inner row rest
    match p.modifier? row .before with
    | none => return p :: rest
    | some m =>
      let modified ← modify inner m (rest.takeWhile fun q => !q.ends row .before)
      return modified :: rest.dropWhile fun q => !q.ends row .before

/-- Groups the modifiers behind operands of tier `row`, the first one first;
    `left` holds the parts passed so far, nearest first. -/
def groupAfter (inner : List Part → Except ParseError Expr) (row : Nat) (left : List Part) :
    List Part → Except ParseError (List Part)
  | [] => .ok left.reverse
  | p :: rest => do
    match p.modifier? row .after with
    | none => groupAfter inner row (p :: left) rest
    | some m =>
      let modified ← modify inner m (left.takeWhile fun q => !q.ends row .after).reverse
      groupAfter inner row (modified :: left.dropWhile fun q => !q.ends row .after) rest

/-- The operand that is left when every tier is grouped; no part at all is
    void. -/
def single : List Part → Except ParseError Expr
  | [] => .ok .void
  | [.grouped e] => .ok e
  | [.item (.operand e)] => .ok e
  | parts => .error (.operatorExpected (shownItems parts))

/-- Groups parts by the tiers from row `row` on. -/
def groupTiers : (tiers : List Tier) → (row : Nat) → List Part → Except ParseError Expr
  | [], _, parts => single parts
  | .operators associativity _ :: tighter, row, parts => do
    let (segment, more) := cutAt row parts
    let first ← groupTiers tighter (row + 1) segment
    let rest ← more.mapM fun (o, segment) => do
      return (o, ← groupTiers tighter (row + 1) segment)
    return fold associativity first rest
  | .modifiers .before _ :: tighter, row, parts => do
    groupTiers tighter (row + 1) (← groupBefore (groupTiers tighter (row + 1)) row parts)
  | .modifiers .after _ :: tighter, row, parts => do
    groupTiers tighter (row + 1) (← groupAfter (groupTiers tighter (row + 1)) row [] parts)

/-- The expression of a line of items with decided roles. -/
def Line.toExpr (g : Grammar) (l : Line Item) : Except ParseError Expr :=
  groupTiers g.tiers 0 (l.toList.map Part.item)

end Abacus.Parse
