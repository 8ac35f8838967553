import Abacus.Expr.Basic
import Abacus.Grammar.Registry

/-!
# The text of an expression with the parentheses a grammar needs

An operand has parentheses only where the grammar would otherwise group the text
in another way.  Written parentheses stay, and a symbol that the grammar does not
know always has parentheses around its operation.
-/

namespace Abacus.Expr

/-- Where an expression stands.  The tier is that of the symbol beside it, if the
    grammar knows that symbol. -/
inductive Place where
  /-- On its own: a whole line, an argument, or inside of parentheses. -/
  | alone
  | leftOf (tier : Option Nat) (associativity : Option Associativity)
  | rightOf (tier : Option Nat) (associativity : Option Associativity)
  | operandOf (tier : Option Nat) (side : Side)

/-- Whether an operation of tier `own` needs parentheses in a place. -/
def operationNeedsParens (own : Option Nat) (place : Place) : Bool :=
  match place, own with
  | .alone, _ => false
  | _, none => true
  | .leftOf (some tier) associativity, some own =>
    own < tier || (own = tier && associativity ≠ some .left)
  | .rightOf (some tier) associativity, some own =>
    own < tier || (own = tier && associativity ≠ some .right)
  | .operandOf (some tier) _, some own => own ≤ tier
  | _, some _ => true

/-- Whether a modification of tier `own` on a side needs parentheses in a place. -/
def modificationNeedsParens (own : Option Nat) (side : Side) (place : Place) : Bool :=
  match place, own with
  | .alone, _ => false
  | _, none => true
  | .leftOf (some tier) _, some own => own < tier
  | .rightOf (some tier) _, some own => own < tier
  | .operandOf (some tier) outer, some own =>
    match outer, side with
    | .after, .before => own < tier
    | .before, .after => own ≤ tier
    | _, _ => false
  | _, some _ => true

def literalNeedsParens (v : Value) : Place → Bool
  | .alone => false
  | _ => v.any fun a => !a.isAtomic

/-- The gap between a modifier and an operand whose own modifier is written on the
    same side; without it the two symbols could be read as one. -/
def modifierGap (side : Side) : Expr → String
  | .unary modifier _ => if modifier.side = side then " " else ""
  | _ => ""

def parenthesised (needed : Bool) (text : String) : String :=
  if needed then "(" ++ text ++ ")" else text

mutual
/-- The text of an expression in a place. -/
def renderAt (g : Grammar) (place : Place) : Expr → String
  | .literal v => parenthesised (literalNeedsParens v place) v.text
  | .cell c => c.name
  | .binary operator left right =>
    let tier := g.operatorRow? operator.symbol
    let associativity := g.associativity? operator.symbol
    parenthesised (operationNeedsParens tier place)
      (renderAt g (.leftOf tier associativity) left ++ " " ++ operator.symbol ++ " " ++
        renderAt g (.rightOf tier associativity) right)
  | .unary modifier operand =>
    let side := modifier.side
    let tier := g.modifierRow? modifier.symbol side
    let inner := renderAt g (.operandOf tier side) operand
    let gap := modifierGap side operand
    parenthesised (modificationNeedsParens tier side place) <|
      match side with
      | .before => modifier.symbol ++ gap ++ inner
      | .after => inner ++ gap ++ modifier.symbol
  | .call function arguments =>
    function.name ++ "(" ++ ", ".intercalate (renderAll g arguments) ++ ")"
  | .parens inner => "(" ++ renderAt g .alone inner ++ ")"
  | .branches whenTrue whenFalse =>
    "(" ++ renderAt g .alone whenTrue ++ " : " ++ renderAt g .alone whenFalse ++ ")"

/-- The texts of a list of expressions on their own. -/
def renderAll (g : Grammar) : List Expr → List String
  | [] => []
  | e :: rest => renderAt g .alone e :: renderAll g rest
end

/-- The text of an expression with the parentheses the grammar needs. -/
def render (g : Grammar) (e : Expr) : String := e.renderAt g .alone

theorem renderAll_eq_map (g : Grammar) (es : List Expr) :
    renderAll g es = es.map fun e => e.render g := by
  induction es with
  | nil => rfl
  | cons e rest ih => rw [renderAll, ih, List.map_cons, render]

end Abacus.Expr
