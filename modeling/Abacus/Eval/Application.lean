import Abacus.Eval.Operand

/-!
# Actions

The action of an operator or a modifier is carried out once, on operands that
are prepared as it wants them.  The result is an expression, which may have to
be evaluated in turn, such as the branch that a condition selects.
-/

namespace Abacus

/-- Conjunction (`absorbing` is false) and disjunction (`absorbing` is true).  A
    left operand with the absorbing truth value decides alone, one without a truth
    value makes the result void, and otherwise the right operand decides. -/
def connective (eval : Evaluator) (absorbing : Bool) (left right : Operand) : Eval Expr := do
  match (← left.evaluate eval).bind Number.truth? with
  | none => return .void
  | some t =>
    if t = absorbing then return .literal (some (.ofBool t))
    let v ← right.evaluate eval
    return .literal ((v.bind Number.truth?).map .ofBool)

/-- The two branches of an operand; what is no pair of branches is the first
    branch, and the second is void. -/
def branchesOf (right : Operand) (rightStep : Eval Expr) : Eval (Expr × Expr) := do
  if right.isInert then
    match ← rightStep with
    | .branches whenTrue whenFalse => return (whenTrue, whenFalse)
    | e => return (e, .void)
  else return (right.toExpr, .void)

/-- Selects a branch without evaluating it; a condition without a truth value
    selects none. -/
def selectBranch (eval : Evaluator) (left right : Operand) (rightStep : Eval Expr) : Eval Expr := do
  match (← left.evaluate eval).bind Number.truth? with
  | none => return .void
  | some choice =>
    let (whenTrue, whenFalse) ← branchesOf right rightStep
    return if choice then whenTrue else whenFalse

/-- Applies an operator, given the step of its right operand. -/
def Operator.applyWith (eval : Evaluator) (o : Operator) (left right : Operand)
    (rightStep : Eval Expr) : Eval Expr :=
  match o.action with
  | .combine rule => do
    let a ← left.evaluate eval
    let b ← right.evaluate eval
    return .literal (← Eval.ofExcept (rule.apply a b))
  | .assign => do
    let target ← Eval.ofExcept left.target
    let v ← right.evaluate eval
    target.assign (.literal v)
    return .literal v
  | .bind => do
    let target ← Eval.ofExcept left.target
    let definition ← if right.isInert then rightStep else pure right.toExpr
    target.assign definition
    return target
  | .update rule => do
    let target ← Eval.ofExcept left.target
    -- Evaluating the right operand may have changed the left one.
    let a ← left.evaluate eval
    let b ← right.evaluate eval
    let v ← Eval.ofExcept (rule.apply a b)
    target.assign (.literal v)
    return .literal v
  | .conjunction => connective eval false left right
  | .disjunction => connective eval true left right
  | .condition => selectBranch eval left right rightStep
  | .alternatives => return .branches left.toExpr right.toExpr

/-- Applies a modifier, given the step of its operand.  Increasing changes a
    variable that has a value; in front of it the result is the new value, behind
    it the old one. -/
def Modifier.applyWith (eval : Evaluator) (m : Modifier) (operand : Operand)
    (operandStep : Eval Expr) : Eval Expr :=
  match m.action with
  | .transform rule => do
    match ← operand.evaluate eval with
    | none => return .void
    | some a => return .literal (← Eval.ofExcept (rule a))
  | .increase amount => do
    let target ← Eval.ofExcept operand.target
    match ← operand.evaluate eval with
    | none => return .void
    | some old =>
      let new ← Eval.ofExcept (old.add (.integer amount))
      target.assign (.literal (some new))
      return .literal (some (match m.side with
        | .before => new
        | .after => old))
  | .definition => operandStep

end Abacus
