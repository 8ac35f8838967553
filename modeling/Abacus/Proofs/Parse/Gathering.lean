import Abacus.Proofs.Parse.Grouped
import Abacus.Proofs.Parse.Reading
import Abacus.Proofs.Parse.Shaping
import Abacus.Proofs.Parse.Spelling

/-!
# What a line parses to

A line of the standard grammar parses to a legible expression: it has the shape of
what is grouped, its numbers are not negative, and its cells and functions are the
ones that their names refer to, once the variables that the parse creates are added.
-/

namespace Abacus.Parse

open Abacus.Expr (Legible Chained)
open Grammar (standard)

/-! ## Scopes -/

/-- Scopes of the standard grammar in which everything is kept under its own name. -/
structure Scope.Sound (scope : Scope) : Prop where
  grammar : scope.grammar = standard
  parameters : ∀ name c, scope.parameters.get? name = some c → c.name = name
  names : ∀ name c, scope.names.get? name = some c → c.name = name
  functions : ∀ key f, scope.functions.get? key = some f → f.name = key.1
  leading : ∀ c, scope.leading = some c → Lexeme.isName c.name.toList ∧
    scope.parameters.get? c.name = none ∧ scope.names.get? c.name = some c

/-- Leaves of what a line parses to. -/
def Found (scope : Scope) (created : Table String Cell) : Expr → Prop
  | .literal none => True
  | .literal (some a) => (∃ n : Nat, a = .integer n) ∨ ∃ x, a = .float x
  | .cell c => Lexeme.isName c.name.toList ∧ scope.lookup created c.name = some c
  | _ => False

abbrev Gathered (scope : Scope) (final : Table String Cell) (e : Expr) : Prop :=
  Legible (Found scope final) (Calls scope) e

/-! ## Operands -/

theorem found_number {text : List Char} {a : Number} (reads : Number.ofText? text = some a) :
    (∃ n : Nat, a = .integer n) ∨ ∃ x, a = .float x := by
  obtain ⟨l, _, number⟩ := Option.bind_eq_some_iff.1 reads
  cases l with
  | integer n =>
    cases number
    exact .inl ⟨n, rfl⟩
  | real x =>
    cases number
    exact .inr ⟨x, rfl⟩
  | name _ => cases number

theorem Scope.Sound.name_of_lookup {scope : Scope} (sound : scope.Sound) {created : Table String Cell}
    (creates : scope.Creates created) {name : String} {c : Cell}
    (found : scope.lookup created name = some c) : c.name = name := by
  rcases Option.or_eq_some_iff.1 found with parameter | ⟨_, found⟩
  · exact sound.parameters name c parameter
  · rcases Option.or_eq_some_iff.1 found with known | ⟨_, new⟩
    · exact sound.names name c known
    · exact creates.named name c new

/-! ## Lines -/

theorem within_of_registered {i : Item} (registered : i.Registered standard) : i.Within 0 := by
  cases i with
  | operand e => exact registered.1
  | symbol _ _ => exact registered
  | operator role | before role | after role => exact ⟨Nat.zero_le _, registered⟩

theorem gathered_of_groups {scope : Scope} {final : Table String Cell} {items committed : List Item}
    {leading : Option Expr} (found : ∀ i ∈ items, i.Found standard)
    (operands : ∀ e, .operand e ∈ items → Gathered scope final e)
    (continues : ∀ e, leading = some e → (e.isOperand ∧ e.isVoid = false) ∧ Gathered scope final e)
    (commits : Commits standard leading items committed) {e : Expr}
    (groups : groupTiers standard.tiers 0 (committed.map .item) = .ok e) : Gathered scope final e := by
  have registered := commits.registered Grammar.toGrammar_standard found
    fun e leads => (continues e leads).1
  have good (x : Expr) (member : .operand x ∈ committed) : Gathered scope final x :=
    (commits.operand member).elim (operands x) fun leads => (continues x leads).2
  have chained : Chained 0 e := chained_of_groups (Nat.zero_le 8)
    (.ofItems fun i member => within_of_registered (registered i member)) groups
  refine chained.legible ?_
  refine groupTiers_keeps (P := fun e => ∀ x, .operand x ∈ e.items standard → Gathered scope final x)
    ?_ ?_ ?_ ?_ groups
  · intro x member
    cases List.mem_singleton.1 member
    exact .literal True.intro
  · intro o l r left right x member
    rw [Expr.items, List.mem_append, List.mem_cons] at member
    rcases member with member | impossible | member
    · exact left x member
    · cases impossible
    · exact right x member
  · intro m e inner x member
    rw [Expr.items] at member
    cases side : m.side <;> exact inner x (by simpa [side] using member)
  · intro p among
    obtain ⟨i, member, rfl⟩ := List.mem_map.1 among
    cases i with
    | operand x =>
      intro y inside
      rw [Expr.items_operand standard (registered _ member).1] at inside
      cases List.mem_singleton.1 inside
      exact good x member
    | symbol _ _ | operator _ | before _ | after _ => exact True.intro

/-! ## What is spelled -/

section

variable {scope : Scope} {final : Table String Cell}

mutual

theorem SpellsOperand.gathered (sound : scope.Sound) (creates : scope.Creates final) {text : List Char}
    {e : Expr} (spells : SpellsOperand scope final text e) : Gathered scope final e :=
  match spells with
  | .number reads => .literal (found_number reads)
  | .name named _ found => by
    have name := sound.name_of_lookup creates found
    exact .cell ⟨by rw [name, String.toList_ofList]; exact named, by rw [name]; exact found⟩
  | .parens inner => .parens (inner.gathered sound creates)
  | .call named arguments known => by
    have name := sound.functions _ _ known
    refine .call ⟨?_, ?_⟩ (arguments.gathered sound creates)
    · rw [name, String.toList_ofList]
      exact named
    · rw [name]
      exact known

theorem SpellsArguments.gathered (sound : scope.Sound) (creates : scope.Creates final)
    {texts : List (List Char)} {arguments : List Expr}
    (spells : SpellsArguments scope final texts arguments) : ∀ e ∈ arguments, Gathered scope final e :=
  match spells with
  | .nil => List.forall_mem_nil _
  | .cons first rest =>
    List.forall_mem_cons.2 ⟨first.gathered sound creates, rest.gathered sound creates⟩

theorem SpellsItems.gathered (sound : scope.Sound) (creates : scope.Creates final) {text : List Char}
    {items : List Item} (spells : SpellsItems scope final text items) :
    ∀ e, .operand e ∈ items → Gathered scope final e :=
  match spells with
  | .blank _ => fun _ impossible => by cases impossible
  | .operand _ spelled rest => fun e member => by
    rcases List.mem_cons.1 member with same | member
    · cases same
      exact spelled.gathered sound creates
    · exact rest.gathered sound creates e member
  | .symbol _ _ rest => fun e member => by
    rcases List.mem_cons.1 member with same | member
    · cases same
    · exact rest.gathered sound creates e member

theorem Spells.gathered (sound : scope.Sound) (creates : scope.Creates final) {wholeLine : Bool}
    {text : List Char} {e : Option Expr} (spells : Spells scope final wholeLine text e) :
    Gathered scope final (e.getD .void) :=
  match spells with
  | .blank _ => .literal True.intro
  | .line _ items commits groups _ => by
    rw [sound.grammar] at commits groups
    refine gathered_of_groups (sound.grammar ▸ items.found) (items.gathered sound creates)
      (fun e continues => ?_) commits groups
    obtain ⟨c, leads, rfl⟩ := leadingOf_eq_some continues
    obtain ⟨named, parameter, known⟩ := sound.leading c leads
    exact ⟨⟨rfl, rfl⟩, .cell ⟨named, by rw [Scope.lookup, parameter, known]; rfl⟩⟩

end

theorem gathered_of_parse (sound : scope.Sound) {line : String} {parsed : Parsed}
    (ends : parse scope line = .ok parsed) :
    scope.Creates parsed.created ∧ ∀ e ∈ parsed.expr, Gathered scope parsed.created e := by
  obtain ⟨creates, spells⟩ :=
    spells_of_parse (sound.grammar ▸ Grammar.toGrammar_standard) ends
  refine ⟨creates, fun e same => ?_⟩
  have gathered := spells.gathered sound creates
  rwa [Option.mem_def.1 same] at gathered

end

end Abacus.Parse
