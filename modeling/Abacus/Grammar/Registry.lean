import Abacus.Grammar.Rule
import Abacus.Table

/-!
# Grammars

A grammar is a list of precedence tiers, loosest first, together with an index
from symbols to the roles in which the tiers register them.  `Grammar.Plan.toGrammar`
is the way to make one: it checks that no tier is empty, that no symbol is
registered twice in one role, and that the operator between adjacent operands is
registered.
-/

namespace Abacus

/-- One level of precedence: operators that fold in one direction, or modifiers
    that are written on one side. -/
inductive Tier where
  | operators (associativity : Associativity) (members : List Operator)
  | modifiers (side : Side) (entries : List (String × Modifier.Action))

namespace Tier

def symbols : Tier → List String
  | .operators _ members => members.map Operator.symbol
  | .modifiers _ entries => entries.map Prod.fst

/-- The direction in which the operators of a tier fold. -/
def associativity? : Tier → Option Associativity
  | .operators associativity _ => some associativity
  | .modifiers _ _ => none

end Tier

/-- An operator or a modifier and the row of its tier; row 0 is the loosest. -/
structure Role (β : Type) where
  row : Nat
  member : β

/-- The roles of one symbol.  Which of them it plays in a line depends on its
    neighbours. -/
structure Roles where
  operator : Option (Role Operator) := none
  before : Option (Role Modifier) := none
  after : Option (Role Modifier) := none

def Roles.modifier (r : Roles) : Side → Option (Role Modifier)
  | .before => r.before
  | .after => r.after

/-- The same roles with another modifier on a side. -/
def Roles.setModifier (r : Roles) (side : Side) (role : Role Modifier) : Roles :=
  match side with
  | .before => { r with before := some role }
  | .after => { r with after := some role }

/-- The role of a symbol on a side, as errors name it. -/
def Side.role : Side → SymbolRole
  | .before => .before
  | .after => .after

/-- Precedence tiers with their index. -/
structure Grammar where
  /-- The tiers, loosest first. -/
  tiers : List Tier
  /-- The roles of every registered symbol. -/
  roles : Table String Roles
  /-- The operator between operands that stand side by side. -/
  default : Role Operator

namespace Grammar

/-- Tiers and a default operator that may or may not make a grammar. -/
structure Plan where
  tiers : List Tier := []
  default : String := "*"

namespace Plan

/-- Adds a tier that binds tighter than all tiers so far. -/
def append (p : Plan) (tier : Tier) : Plan := { p with tiers := p.tiers ++ [tier] }

/-- Inserts a tier before the one in row `row`, or behind the last. -/
def insertAt (p : Plan) (row : Nat) (tier : Tier) : Plan :=
  { p with tiers := p.tiers.take row ++ tier :: p.tiers.drop row }

/-- Chooses the operator between operands that stand side by side. -/
def withDefault (p : Plan) (symbol : String) : Plan := { p with default := symbol }

end Plan

/-- Registers an operator of the tier in row `row`. -/
def registerOperator (row : Nat) (index : Table String Roles) (o : Operator) :
    Except GrammarError (Table String Roles) :=
  let roles := (index.get? o.symbol).getD {}
  match roles.operator with
  | some _ => .error (.duplicateSymbol o.symbol .operator)
  | none => .ok (index.insert o.symbol { roles with operator := some ⟨row, o⟩ })

/-- Registers a modifier of the tier in row `row`. -/
def registerModifier (row : Nat) (side : Side) (index : Table String Roles)
    (entry : String × Modifier.Action) : Except GrammarError (Table String Roles) :=
  let (symbol, action) := entry
  let roles := (index.get? symbol).getD {}
  match roles.modifier side with
  | some _ => .error (.duplicateSymbol symbol side.role)
  | none => .ok (index.insert symbol (roles.setModifier side ⟨row, ⟨symbol, side, action⟩⟩))

/-- Registers the tier in row `row`. -/
def registerTier (row : Nat) (index : Table String Roles) :
    Tier → Except GrammarError (Table String Roles)
  | .operators _ members => members.foldlM (registerOperator row) index
  | .modifiers side entries => entries.foldlM (registerModifier row side) index

/-- Registers tiers from row `row` on; the first violation in the order of rows
    and symbols counts. -/
def registerTiers (row : Nat) (index : Table String Roles) :
    List Tier → Except GrammarError (Table String Roles)
  | [] => .ok index
  | tier :: tiers => do
    if tier.symbols.isEmpty then throw (.emptyTier row)
    let index ← registerTier row index tier
    registerTiers (row + 1) index tiers

/-- The grammar of a plan. -/
def Plan.toGrammar (p : Plan) : Except GrammarError Grammar := do
  let roles ← registerTiers 0 ∅ p.tiers
  match (roles.get? p.default).bind Roles.operator with
  | some default => .ok { tiers := p.tiers, roles, default }
  | none => .error (.unknownDefault p.default)

def roles? (g : Grammar) (symbol : String) : Option Roles := g.roles.get? symbol

/-- Whether a text is a symbol in any role. -/
def isSymbol (g : Grammar) (text : String) : Bool := (g.roles? text).isSome

/-- Every symbol, ordered by code points. -/
def symbols (g : Grammar) : List String :=
  g.roles.keys.mergeSort fun a b => decide (¬ b < a)

def operatorRow? (g : Grammar) (symbol : String) : Option Nat :=
  ((g.roles? symbol).bind Roles.operator).map Role.row

def modifierRow? (g : Grammar) (symbol : String) (side : Side) : Option Nat :=
  ((g.roles? symbol).bind fun r => r.modifier side).map Role.row

def associativity? (g : Grammar) (symbol : String) : Option Associativity := do
  let row ← g.operatorRow? symbol
  let tier ← g.tiers[row]?
  tier.associativity?

end Grammar

end Abacus
