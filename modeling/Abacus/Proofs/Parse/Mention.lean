import Abacus.Proofs.Eval.Vocabulary
import Abacus.Proofs.Parse.Accounting
import Abacus.Proofs.Parse.Grouped

/-!
# What a line is parsed to

An expression that a line parses to is composed of literals, the cells and functions that the scope
knows, and the variables that the line creates.  So it has every property that these have and
that composing keeps; above all it keeps to every vocabulary that these keep to.
-/

namespace Abacus.Parse

/-- What a property of expressions must hold of and be kept by, to hold of all that is parsed. -/
structure Scope.Composes (scope : Scope) (final : Table String Cell) (P : Expr → Prop) : Prop where
  literal (v : Value) : P (.literal v)
  cell {name : String} {c : Cell} : scope.lookup final name = some c → P (.cell c)
  leading {c : Cell} : scope.leading = some c → P (.cell c)
  parens {e : Expr} : P e → P (.parens e)
  call {key : String × Nat} {f : Function} {es : List Expr} :
    scope.functions.get? key = some f → (∀ e ∈ es, P e) → P (.call f es)
  binary (o : Operator) {l r : Expr} : P l → P r → P (.binary o l r)
  unary (m : Modifier) {e : Expr} : P e → P (.unary m e)

section

variable {P : Expr → Prop} {scope : Scope} {final : Table String Cell}

theorem composed_of_groupTiers (composes : scope.Composes final P) {tiers : List Tier} {row : Nat}
    {items : List Item} {e : Expr} (operands : ∀ x, .operand x ∈ items → P x)
    (groups : groupTiers tiers row (items.map .item) = .ok e) : P e := by
  refine groupTiers_keeps (composes.literal none) (fun o _ _ => composes.binary o)
    (fun m _ => composes.unary m) (fun p among => ?_) groups
  obtain ⟨i, member, rfl⟩ := List.mem_map.1 among
  cases i with
  | operand x => exact operands x member
  | symbol _ _ | operator _ | before _ | after _ => exact True.intro

mutual

theorem SpellsOperand.composed (composes : scope.Composes final P) {text : List Char} {e : Expr}
    (spells : SpellsOperand scope final text e) : P e :=
  match spells with
  | .number _ => composes.literal _
  | .name _ _ found => composes.cell found
  | .parens inner => composes.parens (inner.composed composes)
  | .call _ arguments known => composes.call known (arguments.composed composes)

theorem SpellsArguments.composed (composes : scope.Composes final P) {texts : List (List Char)}
    {arguments : List Expr} (spells : SpellsArguments scope final texts arguments) :
    ∀ e ∈ arguments, P e :=
  match spells with
  | .nil => fun _ impossible => by cases impossible
  | .cons first rest => List.forall_mem_cons.2 ⟨first.composed composes, rest.composed composes⟩

theorem SpellsItems.composed (composes : scope.Composes final P) {text : List Char}
    {items : List Item} (spells : SpellsItems scope final text items) :
    ∀ x, .operand x ∈ items → P x :=
  match spells with
  | .blank _ => fun _ impossible => by cases impossible
  | .operand _ spelled rest => fun x member => by
    rcases List.mem_cons.1 member with same | member
    · cases same
      exact spelled.composed composes
    · exact rest.composed composes x member
  | .symbol _ _ rest => fun x member => by
    rcases List.mem_cons.1 member with same | member
    · cases same
    · exact rest.composed composes x member

theorem Spells.composed (composes : scope.Composes final P) {wholeLine : Bool} {text : List Char}
    {e : Option Expr} (spells : Spells scope final wholeLine text e) : P (e.getD .void) :=
  match spells with
  | .blank _ => composes.literal none
  | .line _ items commits groups _ => by
    refine composed_of_groupTiers composes (fun x member => ?_) groups
    rcases commits.operand member with member | continues
    · exact items.composed composes x member
    · obtain ⟨c, leads, rfl⟩ := leadingOf_eq_some continues
      exact composes.leading leads

end

theorem composed_of_parse {p : Grammar.Plan} (accepted : p.toGrammar = .ok scope.grammar)
    {line : String} {parsed : Parsed} (parses : parse scope line = .ok parsed)
    (composes : scope.Creates parsed.created → scope.Composes parsed.created P) :
    scope.Creates parsed.created ∧ ∀ e ∈ parsed.expr, P e := by
  obtain ⟨creates, spells⟩ := spells_of_parse accepted parses
  refine ⟨creates, fun e same => ?_⟩
  have composed := spells.composed (composes creates)
  rwa [Option.mem_def.1 same] at composed

end

/-! ## Vocabularies -/

/-- Whether all that a line can mention without creating it keeps to a vocabulary. -/
structure Scope.KeepsTo (V : Vocabulary) (scope : Scope) : Prop where
  parameters : ∀ name c, scope.parameters.get? name = some c → V.cell c
  names : ∀ name c, scope.names.get? name = some c → V.cell c
  functions : ∀ key u, scope.functions.get? key = some (.user u) → V.function u
  leading : ∀ c, scope.leading = some c → V.cell c
  modifiers : ∀ m, V.modifier m

variable {V : Vocabulary} {scope : Scope} {final : Table String Cell}

theorem Scope.KeepsTo.lookup (keeps : scope.KeepsTo V)
    (new : ∀ name c, final.get? name = some c → V.cell c) {name : String} {c : Cell}
    (found : scope.lookup final name = some c) : V.cell c := by
  rcases Option.or_eq_some_iff.1 found with parameter | ⟨_, found⟩
  · exact keeps.parameters name c parameter
  · rcases Option.or_eq_some_iff.1 found with known | ⟨_, created⟩
    · exact keeps.names name c known
    · exact new name c created

theorem Scope.KeepsTo.composes (keeps : scope.KeepsTo V)
    (new : ∀ name c, final.get? name = some c → V.cell c) :
    scope.Composes final (Expr.Uses V) where
  literal _ := True.intro
  cell found := keeps.lookup new found
  leading leads := keeps.leading _ leads
  parens uses := uses
  call known arguments :=
    ⟨fun u same => keeps.functions _ u (same ▸ known), Expr.allUse_iff.2 arguments⟩
  binary _ := And.intro
  unary m _ uses := ⟨keeps.modifiers m, uses⟩

/-- What a line is parsed to keeps to a vocabulary that has the variables with the next numbers. -/
theorem uses_of_parse {p : Grammar.Plan} (accepted : p.toGrammar = .ok scope.grammar)
    (keeps : scope.KeepsTo V) {line : String} {parsed : Parsed}
    (parses : parse scope line = .ok parsed)
    (new : ∀ c, c.kind = .variable → scope.fresh ≤ c.id →
      c.id < scope.fresh + parsed.created.size → V.cell c) :
    scope.Creates parsed.created ∧ ∀ e ∈ parsed.expr, e.Uses V := by
  have recorded := recorded_of_parse accepted parses
  refine composed_of_parse accepted parses fun creates => keeps.composes fun name c created => ?_
  obtain ⟨isVariable, fresh⟩ := creates.new name c created
  exact new c isVariable fresh (recorded.id_lt created)

end Abacus.Parse
