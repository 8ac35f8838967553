import Abacus.Eval.Application

/-!
# Steps and values

`step` carries out the outermost action of an expression once, `contract` does so
without evaluating any operand, and `eval` evaluates an expression completely.
All of them look through parentheses.  Only `eval` recurses on expressions that
are no part of the given one, such as definitions and bodies, so only its depth
is bounded by a budget.
-/

namespace Abacus

namespace Expr

/-- One step of evaluation: a cell gives its definition, and an action is carried
    out once on its operands, the left one evaluated before the right one. -/
def step (eval : Evaluator) : Expr → Eval Expr
  | .literal v => pure (.literal v)
  | .branches whenTrue whenFalse => pure (.branches whenTrue whenFalse)
  | .cell c => Eval.definition c
  | .parens inner => inner.step eval
  | .binary operator left right => do
    let strictness := operator.action.strictness
    let l ← Operand.obtain eval strictness.evaluatesLeft left
    let r ← Operand.obtain eval strictness.evaluatesRight right
    operator.applyWith eval l r (r.stepWith (right.step eval))
  | .unary modifier operand => do
    let o ← Operand.obtain eval modifier.action.strictness.evaluatesLeft operand
    modifier.applyWith eval o (o.stepWith (operand.step eval))
  | .call function arguments => do
    let values ← arguments.mapM eval
    return .literal (← function.call eval values)

end Expr

def Operand.step (eval : Evaluator) (o : Operand) : Eval Expr :=
  o.stepWith (o.toExpr.step eval)

def Operator.apply (eval : Evaluator) (o : Operator) (left right : Operand) : Eval Expr :=
  o.applyWith eval left right (right.step eval)

def Modifier.apply (eval : Evaluator) (m : Modifier) (operand : Operand) : Eval Expr :=
  m.applyWith eval operand (operand.step eval)

namespace Expr

/-- Carries out the outermost action once on the operands as they are: literals have
    their value, and every other operand counts as void. -/
def contract (eval : Evaluator) : Expr → Eval Expr
  | .literal v => pure (.literal v)
  | .branches whenTrue whenFalse => pure (.branches whenTrue whenFalse)
  | .cell c => Eval.definition c
  | .parens inner => inner.contract eval
  | .binary operator left right => operator.apply eval (.frozen left) (.frozen right)
  | .unary modifier operand => modifier.apply eval (.frozen operand)
  | .call function arguments => do
    return .literal (← function.call eval (arguments.map frozenValue))

/-- The value of an expression, given how to evaluate the expressions it leads
    to.  A binding has no value, and branches need a condition. -/
def resolve (eval : Evaluator) : Expr → Eval Value
  | .literal v => pure v
  | .cell c => Eval.reading c do eval (← Eval.definition c)
  | .parens inner => inner.resolve eval
  | .branches _ _ => throw .strayBranches
  | .binary operator left right => do
    let e ← (Expr.binary operator left right).step eval
    if operator.binds then return none else eval e
  | .unary modifier operand => do eval (← (Expr.unary modifier operand).step eval)
  | .call function arguments => do eval (← (Expr.call function arguments).step eval)

/-- Evaluates an expression; the budget bounds how deep evaluations nest. -/
def eval : (budget : Nat) → Evaluator
  | 0, _ => Eval.exhausted
  | budget + 1, e => e.resolve (eval budget)

/-! ## Equations -/

theorem step_binary (eval : Evaluator) (o : Operator) (left right : Expr) :
    (Expr.binary o left right).step eval = (do
      let l ← Operand.obtain eval o.action.strictness.evaluatesLeft left
      let r ← Operand.obtain eval o.action.strictness.evaluatesRight right
      o.applyWith eval l r (r.stepWith (right.step eval))) := rfl

@[simp] theorem step_parens (eval : Evaluator) (inner : Expr) :
    (Expr.parens inner).step eval = inner.step eval := rfl

@[simp] theorem contract_parens (eval : Evaluator) (inner : Expr) :
    (Expr.parens inner).contract eval = inner.contract eval := rfl

@[simp] theorem resolve_parens (eval : Evaluator) (inner : Expr) :
    (Expr.parens inner).resolve eval = inner.resolve eval := rfl

theorem eval_succ (budget : Nat) (e : Expr) : eval (budget + 1) e = e.resolve (eval budget) := rfl

end Expr

end Abacus
