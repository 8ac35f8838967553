import Abacus.Eval.Basic

/-!
# Operands

What an action is handed for an operand depends on how strict the action is and
on whether the operand may be evaluated at all.
-/

namespace Abacus

/-- An operand as an action is handed it. -/
inductive Operand where
  /-- Already evaluated. -/
  | value (v : Value)
  /-- Not evaluated yet; the action may evaluate it. -/
  | expr (e : Expr)
  /-- Never to be evaluated: a literal has its value, and anything else counts as
      void. -/
  | frozen (e : Expr)

namespace Operand

/-- Evaluates an operand now if `now` holds, and leaves it to the action
    otherwise. -/
def obtain (eval : Evaluator) (now : Bool) (e : Expr) : Eval Operand :=
  if now then return .value (← eval e) else return .expr e

def evaluate (eval : Evaluator) : Operand → Eval Value
  | .value v => pure v
  | .expr e => eval e
  | .frozen e => pure e.frozenValue

/-- The operand as an expression. -/
def toExpr : Operand → Expr
  | .value v => .literal v
  | .expr e | .frozen e => e

/-- Whether a step of the operand evaluates nothing. -/
def isInert : Operand → Bool
  | .value _ => true
  | .expr e | .frozen e => e.isInert

/-- One step of the operand, given that of its expression.  A value is its own
    step, and a frozen operand takes the step only if that evaluates nothing. -/
def stepWith (step : Eval Expr) : Operand → Eval Expr
  | .value v => pure (.literal v)
  | .expr _ => step
  | .frozen e => if e.isInert then step else pure e

/-- The operand as the target of a mutation, which only a variable can be. -/
def target : Operand → Except EvalError Expr
  | .value v => .error (.notAssignable v.text)
  | .expr e | .frozen e => if e.isVariable then .ok e else .error (.notAssignable e.text)

end Operand

end Abacus
