import Abacus.Expr.Text
import Abacus.Grammar.Registry
import Abacus.Parse.Line

/-!
# Items and their roles

A line of text becomes a line of operands and symbols.  A symbol may be an
operator, a modifier before its operand or a modifier behind it; its neighbours
decide which.  Where two operands then stand side by side the default operator
is spliced between them.
-/

namespace Abacus.Parse

/-- One entry of a line. -/
inductive Item where
  | operand (e : Expr)
  /-- A symbol whose role is not decided yet. -/
  | symbol (text : String) (roles : Roles)
  | operator (role : Role Operator)
  | before (role : Role Modifier)
  | after (role : Role Modifier)

namespace Item

/-- Whether an operand ends with this item. -/
def closesOperand : Item → Bool
  | .operand _ | .after _ => true
  | _ => false

def text : Item → String
  | .operand e => e.text
  | .symbol text _ => text
  | .operator role => role.member.symbol
  | .before role | .after role => role.member.symbol

/-- Whether a symbol in front of this item can be an operator: the item is an
    operand or a symbol that cannot be an operator itself. -/
def followsOperator : Item → Bool
  | .operand _ | .before _ => true
  | .symbol _ roles => roles.operator.isNone
  | .operator _ | .after _ => false

/-- Whether an operand starts with this item when it stands behind an operand:
    then a symbol is a modifier before its operand only if it has no other
    role. -/
def opensOperand : Item → Bool
  | .operand _ | .before _ => true
  | .symbol _ roles => roles.operator.isNone && roles.after.isNone && roles.before.isSome
  | .operator _ | .after _ => false

end Item

/-- The role of a symbol.  Behind an operand it is a modifier of that operand if
    it cannot be an operator or the next item gives an operator no right operand;
    elsewhere it is a modifier before the next operand if it can be. -/
def decideRole (afterOperand nextFollowsOperator : Bool) (roles : Roles) : Option Item :=
  let operator := roles.operator.map Item.operator
  let before := roles.before.map Item.before
  let after := roles.after.map Item.after
  if afterOperand then
    -- An operator needs an operand behind it; without one the symbol ends this operand.
    let modifies := roles.operator.isNone || !nextFollowsOperator
    ((after.filter fun _ => modifies).or operator).or before
  else (before.or operator).or after

/-- The item with its role decided; `next` is the item behind it. -/
def decideItem (afterOperand : Bool) (next : Option Item) : Item → Except ParseError Item
  | .symbol text roles =>
    match decideRole afterOperand (next.any Item.followsOperator) roles with
    | some item => .ok item
    | none => .error (.unrecognized text)
  | item => .ok item

/-- Decides the roles of a line from the left, and for each item whether the
    default operator is to be spliced behind it. -/
def decideRoles (afterOperand : Bool) : List Item → Except ParseError (List (Item × Bool))
  | [] => .ok []
  | item :: rest => do
    let decided ← decideItem afterOperand rest.head? item
    let splices := decided.closesOperand && rest.head?.any Item.opensOperand
    -- Behind a spliced operator the next item stands as it does behind a written one.
    let decidedRest ← decideRoles (decided.closesOperand && !splices) rest
    return (decided, splices) :: decidedRest

/-- Writes decided items to their places, splicing the default operator where it
    is due. -/
def Line.writeBack (default : Item) (l : Line Item) : List (Nat × Item × Bool) → Line Item
  | [] => l
  | (id, item, splices) :: rest =>
    let l := l.set id item
    (if splices then l.insertBefore (l.next? id) default else l).writeBack default rest

/-- Decides the role of every symbol of a line and splices the default
    operator. -/
def Line.decide (g : Grammar) (l : Line Item) : Except ParseError (Line Item) := do
  let decided ← decideRoles false l.toList
  return l.writeBack (.operator g.default) (l.ids.zip decided)

/-- Puts an operand in front of a line that starts with an operator. -/
def Line.withLeading (leading : Option Expr) (l : Line Item) : Line Item :=
  match leading, l.first.bind l.get? with
  | some e, some (.operator _) => l.insertBefore l.first (.operand e)
  | _, _ => l

end Abacus.Parse
