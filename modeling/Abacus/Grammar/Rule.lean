import Abacus.Number.Arithmetic
import Abacus.Number.Power

/-!
# Rules

A rule computes a value from values and also says what becomes of an absent
operand; unless it does, the result is absent.  The action of an operator or a
modifier applies a rule, changes a variable, or decides which operands are
evaluated at all.
-/

namespace Abacus

/-- The direction in which a chain of operators of one tier folds. -/
inductive Associativity where
  /-- `a - b - c` is `(a - b) - c`. -/
  | left
  /-- `a = b = c` is `a = (b = c)`. -/
  | right
  deriving DecidableEq, Repr

/-- The side of its operand on which a modifier is written. -/
inductive Side where
  | before
  | after
  deriving DecidableEq, Repr

/-- Which operands are evaluated before an action is carried out. -/
inductive Strictness where
  /-- All of them. -/
  | eager
  /-- The right one; the left, or only, operand is the target of a mutation. -/
  | target
  /-- The left one; the action decides about the right one. -/
  | lazy
  /-- None. -/
  | deferred
  deriving DecidableEq, Repr

/-- Whether the left, or only, operand is evaluated first. -/
def Strictness.evaluatesLeft : Strictness → Bool
  | .eager | .lazy => true
  | .target | .deferred => false

/-- Whether the right operand is evaluated first. -/
def Strictness.evaluatesRight : Strictness → Bool
  | .eager | .target => true
  | .lazy | .deferred => false

/-! ## Rules over values -/

/-- A partial function on numbers with a possibly absent result. -/
abbrev UnaryRule := Number → Except EvalError Value

/-- A rule for two operands of which either may be absent. -/
structure ValueRule where
  /-- Both operands are present. -/
  both : Number → Number → Except EvalError Value
  /-- Only the right operand is present. -/
  onlyRight : Option UnaryRule := none
  /-- Only the left operand is present. -/
  onlyLeft : Option UnaryRule := none
  /-- Neither operand is present. -/
  neither : Value := none

/-- Applies an optional rule; a missing one has no result. -/
def UnaryRule.applyOptional (rule : Option UnaryRule) (a : Number) : Except EvalError Value :=
  match rule with
  | some rule => rule a
  | none => .ok none

/-- Applies the case of a rule that fits the operands. -/
def ValueRule.apply (r : ValueRule) : Value → Value → Except EvalError Value
  | some a, some b => r.both a b
  | none, some b => UnaryRule.applyOptional r.onlyRight b
  | some a, none => UnaryRule.applyOptional r.onlyLeft a
  | none, none => .ok r.neither

namespace UnaryRule

def same : UnaryRule := fun a => .ok (some a)

def negate : UnaryRule := fun a => .ok (some a.negate)

def always (b : Bool) : UnaryRule := fun _ => .ok (some (.ofBool b))

/-- 1 for 0 and 0 for 1; other numbers have no truth value to invert. -/
def not : UnaryRule := fun a => .ok (a.truth?.map fun t => .ofBool !t)

def factorial : UnaryRule := fun a => a.factorial.map some

end UnaryRule

namespace ValueRule

def ofOperation (op : Number → Number → Except EvalError Number) : ValueRule where
  both a b := (op a b).map some

/-- The rule of a comparison, which is void for numbers without an order. -/
def ofOrder (accepts : Ordering → Bool) : ValueRule where
  both a b := .ok ((a.compare? b).map fun o => .ofBool (accepts o))

/-- `+`, which may lack its left operand. -/
def add : ValueRule := { ofOperation Number.add with onlyRight := some UnaryRule.same }

/-- `-`, which may lack its left operand. -/
def sub : ValueRule := { ofOperation Number.sub with onlyRight := some UnaryRule.negate }

def mul : ValueRule := ofOperation Number.mul

def div : ValueRule := ofOperation Number.div

def floorDiv : ValueRule := ofOperation Number.floorDiv

def floorMod : ValueRule := ofOperation Number.floorMod

def pow : ValueRule := ofOperation Number.pow

/-- `==`: an absent operand equals an absent one and nothing else. -/
def equal : ValueRule where
  both a b := .ok (some (.ofBool (a.sameValue b)))
  onlyRight := some (UnaryRule.always false)
  onlyLeft := some (UnaryRule.always false)
  neither := some (.ofBool true)

/-- `!=`, the negation of `==`. -/
def unequal : ValueRule where
  both a b := .ok (some (.ofBool !(a.sameValue b)))
  onlyRight := some (UnaryRule.always true)
  onlyLeft := some (UnaryRule.always true)
  neither := some (.ofBool false)

def less : ValueRule := ofOrder (· == .lt)

def greater : ValueRule := ofOrder (· == .gt)

def lessOrEqual : ValueRule := ofOrder (· != .gt)

def greaterOrEqual : ValueRule := ofOrder (· != .lt)

end ValueRule

/-! ## Actions of operators and modifiers -/

/-- What an operator does with its operands. -/
inductive Operator.Action where
  /-- Combines two values. -/
  | combine (rule : ValueRule)
  /-- Stores the right value in the left variable. -/
  | assign
  /-- Binds the left variable to the right expression without evaluating it. -/
  | bind
  /-- Combines the left variable with the right value and stores the result. -/
  | update (rule : ValueRule)
  /-- Conjunction; a false left operand decides alone. -/
  | conjunction
  /-- Disjunction; a true left operand decides alone. -/
  | disjunction
  /-- Chooses between two branches. -/
  | condition
  /-- Makes a pair of branches. -/
  | alternatives

/-- What a modifier does with its operand. -/
inductive Modifier.Action where
  /-- Applied to the value; an absent one stays absent. -/
  | transform (rule : UnaryRule)
  /-- Adds to a variable. -/
  | increase (amount : Int)
  /-- Takes the definition without evaluating it. -/
  | definition

def Operator.Action.strictness : Operator.Action → Strictness
  | .combine _ => .eager
  | .assign | .update _ => .target
  | .conjunction | .disjunction | .condition => .lazy
  | .bind | .alternatives => .deferred

def Modifier.Action.strictness : Modifier.Action → Strictness
  | .transform _ => .eager
  | .increase _ => .target
  | .definition => .deferred

/-- A symbol written between two operands. -/
structure Operator where
  symbol : String
  action : Operator.Action

/-- A symbol written on one side of an operand. -/
structure Modifier where
  symbol : String
  side : Side
  action : Modifier.Action

/-- Whether an operator evaluates neither operand. -/
def Operator.isDeferred (o : Operator) : Bool := o.action.strictness = .deferred

/-- Whether an operator only binds a name, so that evaluating it has no value. -/
def Operator.binds (o : Operator) : Bool :=
  match o.action with
  | .bind => true
  | _ => false

/-- Whether a modifier does not evaluate its operand. -/
def Modifier.isDeferred (m : Modifier) : Bool := m.action.strictness = .deferred

end Abacus
