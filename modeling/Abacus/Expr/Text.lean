import Abacus.Expr.Basic

/-!
# The fully parenthesised text of an expression

Every operation and every modification has parentheses of its own, and so has
every literal that has a sign or a slash.
-/

namespace Abacus.Expr

def literalText (v : Value) : String :=
  match v with
  | some a => if a.isAtomic then a.text else "(" ++ a.text ++ ")"
  | none => Value.text none

mutual
/-- The fully parenthesised text. -/
def text : Expr → String
  | .literal v => literalText v
  | .cell c => c.name
  | .binary operator left right =>
    "(" ++ left.text ++ " " ++ operator.symbol ++ " " ++ right.text ++ ")"
  | .unary modifier operand =>
    match modifier.side with
    | .before => "(" ++ modifier.symbol ++ operand.text ++ ")"
    | .after => "(" ++ operand.text ++ modifier.symbol ++ ")"
  | .call function arguments => function.name ++ "(" ++ ", ".intercalate (texts arguments) ++ ")"
  | .parens inner => "(" ++ inner.text ++ ")"
  | .branches whenTrue whenFalse => "(" ++ whenTrue.text ++ " : " ++ whenFalse.text ++ ")"

def texts : List Expr → List String
  | [] => []
  | e :: rest => e.text :: texts rest
end

theorem texts_eq_map (es : List Expr) : texts es = es.map text := by
  induction es with
  | nil => rfl
  | cons e rest ih => rw [texts, ih, List.map_cons]

end Abacus.Expr
