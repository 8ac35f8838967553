import Abacus.Proofs.Grammar.Index
import Abacus.Proofs.Table
import Mathlib.Data.List.Induction
import Mathlib.Data.String.Basic

/-!
# Registration

A plan is made by calls that append tiers, insert them and choose the default operator.  It is a
grammar if no tier is empty, no symbol stands twice in one role and the default symbol is an
operator; otherwise its first violation is reported.  The index of a grammar finds exactly what
the tiers list: operators and modifiers are registered alike, so that one invariant relates the
index to the list of all that was registered.
-/

namespace Abacus

open Fallible

/-! ## What tiers register -/

def Tier.role : Tier → SymbolRole
  | .operators _ _ => .operator
  | .modifiers side _ => side.role

/-- The symbols of a tier, each with the role in which the tier registers it. -/
def Tier.uses (tier : Tier) : List (String × SymbolRole) := tier.symbols.map (·, tier.role)

inductive Entry where
  | operator (o : Operator)
  | modifier (m : Modifier)

namespace Entry

def symbol : Entry → String
  | .operator o => o.symbol
  | .modifier m => m.symbol

def role : Entry → SymbolRole
  | .operator _ => .operator
  | .modifier m => m.side.role

def use (e : Entry) : String × SymbolRole := (e.symbol, e.role)

end Entry

def Tier.entries : Tier → List Entry
  | .operators _ members => members.map .operator
  | .modifiers side entries => entries.map fun entry => .modifier ⟨entry.1, side, entry.2⟩

theorem Tier.map_use_entries (tier : Tier) : tier.entries.map Entry.use = tier.uses := by
  cases tier <;> simp [entries, uses, symbols, role, Entry.use, Entry.symbol, Entry.role]

def Roles.role? (r : Roles) : SymbolRole → Option (Role Entry)
  | .operator => r.operator.map fun found => ⟨found.row, .operator found.member⟩
  | .before => r.before.map fun found => ⟨found.row, .modifier found.member⟩
  | .after => r.after.map fun found => ⟨found.row, .modifier found.member⟩

def Roles.setEntry (r : Roles) (row : Nat) : Entry → Roles
  | .operator o => { r with operator := some ⟨row, o⟩ }
  | .modifier m => r.setModifier m.side ⟨row, m⟩

theorem Roles.role?_setEntry (r : Roles) (row : Nat) (e : Entry) (role : SymbolRole) :
    (r.setEntry row e).role? role = if e.role = role then some ⟨row, e⟩ else r.role? role := by
  cases e with
  | operator o => cases role <;> rfl
  | modifier m =>
    obtain ⟨symbol, side, action⟩ := m
    cases side <;> cases role <;> rfl

namespace Grammar

/-- All that tiers register, in the order of rows and positions. -/
def uses (tiers : List Tier) : List (String × SymbolRole) := tiers.flatMap Tier.uses

/-- Whether no tier is empty and no symbol stands twice in one role. -/
structure Clean (tiers : List Tier) : Prop where
  filled : ∀ tier ∈ tiers, tier.symbols ≠ []
  distinct : (uses tiers).Nodup

namespace Plan

/-- A call on a plan that is being made. -/
inductive Call where
  | append (tier : Tier)
  | insertAt (row : Nat) (tier : Tier)
  | withDefault (symbol : String)

def call (p : Plan) : Call → Plan
  | .append tier => p.append tier
  | .insertAt row tier => p.insertAt row tier
  | .withDefault symbol => p.withDefault symbol

/-- The plan that a sequence of calls makes. -/
def ofCalls (calls : List Call) : Plan := calls.foldl call {}

/-- The first violation in the order of rows, then of positions; the default operator is last. -/
inductive FirstViolation (p : Plan) : GrammarError → Prop
  | emptyTier {before after : List Tier} {tier : Tier} (tiers : p.tiers = before ++ tier :: after)
      (clean : Clean before) (empty : tier.symbols = []) :
      FirstViolation p (.emptyTier before.length)
  | duplicateSymbol {before after : List Tier} {tier : Tier}
      {front rest : List (String × SymbolRole)} {symbol : String} {role : SymbolRole}
      (tiers : p.tiers = before ++ tier :: after) (clean : Clean before)
      (position : tier.uses = front ++ (symbol, role) :: rest)
      (distinct : (uses before ++ front).Nodup) (again : (symbol, role) ∈ uses before ++ front) :
      FirstViolation p (.duplicateSymbol symbol role)
  | unknownDefault (clean : Clean p.tiers) (absent : (p.default, .operator) ∉ uses p.tiers) :
      FirstViolation p (.unknownDefault p.default)

end Plan

/-- All operators and modifiers of tiers with their rows, of which the first is `row`. -/
def registered (row : Nat) (tiers : List Tier) : List (Role Entry) :=
  (tiers.zipIdx row).flatMap fun (tier, row) => tier.entries.map (⟨row, ·⟩)

theorem map_use_registered (row : Nat) (tiers : List Tier) :
    (registered row tiers).map (fun found => found.member.use) = uses tiers := by
  rw [registered, List.map_flatMap, uses]
  calc (tiers.zipIdx row).flatMap _
    _ = (tiers.zipIdx row).flatMap fun numbered => numbered.1.uses := by
      refine List.flatMap_congr fun numbered _ => ?_
      rw [← Tier.map_use_entries, List.map_map]
      rfl
    _ = ((tiers.zipIdx row).map Prod.fst).flatMap Tier.uses := (List.flatMap_map ..).symm
    _ = tiers.flatMap Tier.uses := by rw [List.zipIdx_map_fst]

theorem mem_registered {tiers : List Tier} {found : Role Entry} :
    found ∈ registered 0 tiers ↔
      ∃ tier, tiers[found.row]? = some tier ∧ found.member ∈ tier.entries := by
  simp only [registered, List.mem_flatMap, Prod.exists, List.mem_zipIdx_iff_getElem?, List.mem_map]
  constructor
  · rintro ⟨tier, row, here, e, member, rfl⟩
    exact ⟨tier, here, member⟩
  · rintro ⟨tier, here, member⟩
    exact ⟨tier, found.row, here, found.member, member, rfl⟩

/-! ## The index while tiers are registered -/

def lookup (index : Table String Roles) (use : String × SymbolRole) : Option (Role Entry) :=
  (index.get? use.1).bind fun roles => roles.role? use.2

theorem role?_getD (index : Table String Roles) (symbol : String) (role : SymbolRole) :
    ((index.get? symbol).getD {}).role? role = lookup index (symbol, role) := by
  unfold lookup
  cases index.get? symbol with
  | none => cases role <;> rfl
  | some roles => rfl

theorem lookup_insert (index : Table String Roles) (row : Nat) (e : Entry)
    (use : String × SymbolRole) :
    lookup (index.insert e.symbol (((index.get? e.symbol).getD {}).setEntry row e)) use =
      if e.use = use then some ⟨row, e⟩ else lookup index use := by
  obtain ⟨symbol, role⟩ := use
  simp only [lookup, Table.get?_insert, Entry.use, Prod.mk.injEq]
  by_cases same : e.symbol = symbol
  · subst same
    simp only [if_true, Option.bind_some, Roles.role?_setEntry, true_and, role?_getD]
    rfl
  · simp only [same, if_false, false_and]

def registerEntry (row : Nat) (index : Table String Roles) :
    Entry → Except GrammarError (Table String Roles)
  | .operator o => registerOperator row index o
  | .modifier m => registerModifier row m.side index (m.symbol, m.action)

theorem registerEntry_eq (row : Nat) (index : Table String Roles) (e : Entry) :
    registerEntry row index e = match lookup index e.use with
      | some _ => .error (.duplicateSymbol e.symbol e.role)
      | none => .ok (index.insert e.symbol (((index.get? e.symbol).getD {}).setEntry row e)) := by
  rw [Entry.use, ← role?_getD]
  cases e with
  | operator o =>
    change registerOperator row index o = _
    unfold registerOperator
    dsimp only [Entry.symbol, Entry.role, Roles.role?]
    split <;> rename_i found <;> rw [found] <;> rfl
  | modifier m =>
    obtain ⟨symbol, side, action⟩ := m
    change registerModifier row side index (symbol, action) = _
    unfold registerModifier
    cases side <;>
      dsimp only [Roles.modifier, Entry.symbol, Entry.role, Side.role, Roles.role?] <;>
      split <;> rename_i found <;> rw [found] <;> rfl

theorem registerTier_eq (row : Nat) (index : Table String Roles) (tier : Tier) :
    registerTier row index tier = tier.entries.foldlM (registerEntry row) index := by
  cases tier with
  | operators associativity members =>
    rw [Tier.entries, List.foldlM_map]
    rfl
  | modifiers side entries =>
    rw [Tier.entries, List.foldlM_map]
    rfl

/-- Whether an index finds exactly what was registered. -/
structure Holds (index : Table String Roles) (done : List (Role Entry)) : Prop where
  lookup (use : String × SymbolRole) (found : Role Entry) :
    lookup index use = some found ↔ found ∈ done ∧ found.member.use = use
  keys (symbol : String) : symbol ∈ index.keys ↔ ∃ found ∈ done, found.member.symbol = symbol
  distinct : index.keys.Nodup

namespace Holds

variable {index : Table String Roles} {done : List (Role Entry)} (holds : Holds index done)

theorem empty : Holds ∅ [] where
  lookup _ _ := ⟨nofun, nofun⟩
  keys _ := ⟨nofun, nofun⟩
  distinct := .nil

include holds

theorem isSome_lookup (use : String × SymbolRole) :
    (Grammar.lookup index use).isSome ↔ use ∈ done.map fun found => found.member.use := by
  rw [Option.isSome_iff_exists, List.mem_map]
  exact exists_congr fun found => holds.lookup use found

theorem refuses (row : Nat) {e : Entry} (again : e.use ∈ done.map fun found => found.member.use) :
    registerEntry row index e = .error (.duplicateSymbol e.symbol e.role) := by
  obtain ⟨found, present⟩ := Option.isSome_iff_exists.1 ((holds.isSome_lookup e.use).2 again)
  rw [registerEntry_eq, present]

/-- Registering what is new adds it to what the index finds and changes nothing else. -/
theorem accepts (row : Nat) {e : Entry} (new : e.use ∉ done.map fun found => found.member.use) :
    ∃ index', registerEntry row index e = .ok index' ∧ Holds index' (done ++ [⟨row, e⟩]) := by
  have absent : Grammar.lookup index e.use = none :=
    Option.not_isSome_iff_eq_none.1 (mt (holds.isSome_lookup e.use).1 new)
  refine ⟨_, by rw [registerEntry_eq, absent], fun use found => ?_, fun symbol => ?_,
    Table.nodup_insert holds.distinct _ _⟩
  · rw [lookup_insert, List.mem_append, List.mem_singleton, or_and_right, ← holds.lookup]
    by_cases same : e.use = use
    · rw [← same, if_pos rfl, absent]
      constructor
      · rintro ⟨⟩
        exact .inr ⟨rfl, rfl⟩
      · rintro (impossible | ⟨rfl, -⟩)
        · cases impossible
        · rfl
    · rw [if_neg same]
      refine ⟨.inl, ?_⟩
      rintro (present | ⟨rfl, impossible⟩)
      · exact present
      · exact absurd impossible same
  · have present := holds.keys symbol
    rw [Table.keys_insert]
    split
    · rename_i known
      simp only [List.mem_append, List.mem_singleton, or_and_right, exists_or, exists_eq_left,
        present]
      refine ⟨.inl, ?_⟩
      rintro (before | rfl)
      · exact before
      · exact (holds.keys _).1 known
    · simp only [List.mem_append, List.mem_singleton, or_and_right, exists_or, exists_eq_left,
        present, eq_comm]

theorem acceptsAll (row : Nat) {entries : List Entry}
    (distinct : (done.map (fun found => found.member.use) ++ entries.map Entry.use).Nodup) :
    ∃ index', entries.foldlM (registerEntry row) index = .ok index' ∧
      Holds index' (done ++ entries.map (⟨row, ·⟩)) := by
  induction entries generalizing index done with
  | nil => exact ⟨index, rfl, by rwa [List.map_nil, List.append_nil]⟩
  | cons e entries inductionHypothesis =>
    rw [List.map_cons] at distinct
    have new : e.use ∉ done.map fun found => found.member.use := fun again =>
      (List.nodup_append.1 distinct).2.2 _ again _ List.mem_cons_self rfl
    obtain ⟨next, registers, holds⟩ := holds.accepts row new
    rw [List.append_cons] at distinct
    obtain ⟨index', ends, holds⟩ := inductionHypothesis holds (by simpa using distinct)
    refine ⟨index', ?_, by simpa using holds⟩
    rw [List.foldlM_cons, registers]
    exact ends

theorem acceptsTiers (row : Nat) {tiers : List Tier} (filled : ∀ tier ∈ tiers, tier.symbols ≠ [])
    (distinct : (done.map (fun found => found.member.use) ++ uses tiers).Nodup) :
    ∃ index', Holds index' (done ++ registered row tiers) ∧ ∀ rest,
      registerTiers row index (tiers ++ rest) = registerTiers (row + tiers.length) index' rest := by
  induction tiers generalizing index done row with
  | nil => exact ⟨index, by simpa [registered] using holds, fun rest => rfl⟩
  | cons tier tiers inductionHypothesis =>
    rw [List.forall_mem_cons] at filled
    rw [uses, List.flatMap_cons, ← List.append_assoc, ← Tier.map_use_entries] at distinct
    obtain ⟨next, registers, holds⟩ := holds.acceptsAll row (List.nodup_append.1 distinct).1
    obtain ⟨index', holds, ends⟩ := inductionHypothesis holds (row + 1) filled.2
      (by simpa [uses, Function.comp_def] using distinct)
    refine ⟨index', by simpa [registered] using holds, fun rest => ?_⟩
    rw [List.cons_append, registerTiers, List.isEmpty_eq_false_iff.2 filled.1, registerTier_eq,
      registers, List.length_cons, Nat.add_comm tiers.length, ← Nat.add_assoc, ← ends rest]
    rfl

end Holds

theorem Clean.registers {tiers : List Tier} (clean : Clean tiers) :
    ∃ index, Holds index (registered 0 tiers) ∧ ∀ rest,
      registerTiers 0 ∅ (tiers ++ rest) = registerTiers tiers.length index rest := by
  obtain ⟨index, holds, ends⟩ :=
    Holds.empty.acceptsTiers 0 clean.filled (by simpa using clean.distinct)
  exact ⟨index, by simpa using holds, by simpa using ends⟩

/-! ## What an index finds -/

section

variable {tiers : List Tier} {index : Table String Roles} (holds : Holds index (registered 0 tiers))

theorem lookup_operator (index : Table String Roles) (symbol : String) :
    lookup index (symbol, .operator) = ((index.get? symbol).bind Roles.operator).map
      fun found => ⟨found.row, .operator found.member⟩ := by
  unfold lookup
  cases index.get? symbol <;> rfl

theorem lookup_modifier (index : Table String Roles) (symbol : String) (side : Side) :
    lookup index (symbol, side.role) = ((index.get? symbol).bind fun r => r.modifier side).map
      fun found => ⟨found.row, .modifier found.member⟩ := by
  unfold lookup
  cases index.get? symbol <;> cases side <;> rfl

include holds

theorem Holds.mem_uses_iff (use : String × SymbolRole) :
    (Grammar.lookup index use).isSome ↔ use ∈ uses tiers := by
  rw [holds.isSome_lookup, map_use_registered]

theorem Holds.operator_iff (symbol : String) (role : Role Operator) :
    (index.get? symbol).bind Roles.operator = some role ↔ ∃ associativity members,
      tiers[role.row]? = some (.operators associativity members) ∧ role.member ∈ members ∧
        role.member.symbol = symbol := by
  have found := holds.lookup (symbol, .operator) ⟨role.row, .operator role.member⟩
  rw [lookup_operator, mem_registered, Option.map_eq_some_iff] at found
  constructor
  · intro present
    obtain ⟨⟨tier, here, member⟩, use⟩ := found.1 ⟨role, present, rfl⟩
    cases tier with
    | operators associativity members =>
      obtain ⟨o, member, same⟩ := List.mem_map.1 member
      cases same
      exact ⟨associativity, members, here, member, congrArg Prod.fst use⟩
    | modifiers side entries =>
      obtain ⟨_, _, impossible⟩ := List.mem_map.1 member
      cases impossible
  · rintro ⟨associativity, members, here, member, rfl⟩
    obtain ⟨other, present, same⟩ := found.2 ⟨⟨_, here, List.mem_map.2 ⟨_, member, rfl⟩⟩, rfl⟩
    cases other
    cases same
    exact present

theorem Holds.modifier_iff (symbol : String) (side : Side) (role : Role Modifier) :
    ((index.get? symbol).bind fun r => r.modifier side) = some role ↔ ∃ entries action,
      tiers[role.row]? = some (.modifiers side entries) ∧ (symbol, action) ∈ entries ∧
        role.member = ⟨symbol, side, action⟩ := by
  have found := holds.lookup (symbol, side.role) ⟨role.row, .modifier role.member⟩
  rw [lookup_modifier, mem_registered, Option.map_eq_some_iff] at found
  constructor
  · intro present
    obtain ⟨⟨tier, here, member⟩, use⟩ := found.1 ⟨role, present, rfl⟩
    cases tier with
    | operators associativity members =>
      obtain ⟨_, _, impossible⟩ := List.mem_map.1 member
      cases impossible
    | modifiers other entries =>
      obtain ⟨⟨symbol', action⟩, listed, same⟩ := List.mem_map.1 member
      obtain ⟨row, m⟩ := role
      cases same
      have same : other = side := by
        have roles : other.role = side.role := congrArg Prod.snd use
        cases other <;> cases side <;> first | rfl | cases roles
      cases same
      cases (congrArg Prod.fst use : symbol' = symbol)
      exact ⟨entries, action, here, listed, rfl⟩
  · rintro ⟨entries, action, here, member, same⟩
    obtain ⟨other, present, same'⟩ := found.2
      ⟨⟨_, here, List.mem_map.2 ⟨(symbol, action), member, by rw [same]⟩⟩, by rw [same]; rfl⟩
    cases other
    cases role
    cases same'
    exact present

theorem Holds.operatorRow_iff (symbol : String) (row : Nat) :
    (((index.get? symbol).bind Roles.operator).map Role.row) = some row ↔ ∃ associativity members,
      tiers[row]? = some (.operators associativity members) ∧
        symbol ∈ members.map Operator.symbol := by
  rw [Option.map_eq_some_iff]
  constructor
  · rintro ⟨role, present, rfl⟩
    obtain ⟨associativity, members, here, member, rfl⟩ := (holds.operator_iff symbol role).1 present
    exact ⟨associativity, members, here, List.mem_map_of_mem member⟩
  · rintro ⟨associativity, members, here, listed⟩
    obtain ⟨o, member, rfl⟩ := List.mem_map.1 listed
    exact ⟨⟨row, o⟩, (holds.operator_iff _ _).2 ⟨associativity, members, here, member, rfl⟩, rfl⟩

theorem Holds.modifierRow_iff (symbol : String) (side : Side) (row : Nat) :
    (((index.get? symbol).bind fun r => r.modifier side).map Role.row) = some row ↔ ∃ entries,
      tiers[row]? = some (.modifiers side entries) ∧ symbol ∈ entries.map Prod.fst := by
  rw [Option.map_eq_some_iff]
  constructor
  · rintro ⟨role, present, rfl⟩
    obtain ⟨entries, action, here, member, -⟩ := (holds.modifier_iff symbol side role).1 present
    exact ⟨entries, here, List.mem_map_of_mem member⟩
  · rintro ⟨entries, here, listed⟩
    obtain ⟨⟨_, action⟩, member, rfl⟩ := List.mem_map.1 listed
    exact ⟨⟨row, _⟩, (holds.modifier_iff _ _ _).2 ⟨entries, action, here, member, rfl⟩, rfl⟩

theorem Holds.mem_keys_iff (symbol : String) :
    symbol ∈ index.keys ↔ ∃ tier ∈ tiers, symbol ∈ tier.symbols := by
  have all : (registered 0 tiers).map (fun found => found.member.symbol) =
      tiers.flatMap Tier.symbols := by
    calc (registered 0 tiers).map (fun found => found.member.symbol)
      _ = (uses tiers).map Prod.fst := by rw [← map_use_registered 0, List.map_map]; rfl
      _ = tiers.flatMap Tier.symbols := by
        simp [uses, List.map_flatMap, Tier.uses, Function.comp_def]
  rw [holds.keys, ← List.mem_flatMap, ← all, List.mem_map]

theorem Holds.associativity_iff (default : Role Operator) (symbol : String)
    (associativity : Associativity) :
    (Grammar.mk tiers index default).associativity? symbol = some associativity ↔
      ∃ (row : Nat) (members : List Operator),
        tiers[row]? = some (.operators associativity members) ∧
          symbol ∈ members.map Operator.symbol := by
  refine Option.bind_eq_some_iff.trans ⟨?_, ?_⟩
  · rintro ⟨row, present, ends⟩
    obtain ⟨other, members, here, member⟩ := (holds.operatorRow_iff symbol row).1 present
    rw [here] at ends
    cases ends
    exact ⟨row, members, here, member⟩
  · rintro ⟨row, members, here, member⟩
    refine ⟨row, (holds.operatorRow_iff symbol row).2 ⟨associativity, members, here, member⟩, ?_⟩
    rw [here]
    rfl

theorem Holds.isSymbol_iff (default : Role Operator) (text : String) :
    (Grammar.mk tiers index default).isSymbol text ↔ ∃ tier ∈ tiers, text ∈ tier.symbols := by
  rw [← holds.mem_keys_iff]
  constructor
  · intro present
    obtain ⟨roles, present⟩ := Option.isSome_iff_exists.1 present
    exact Table.mem_keys present
  · intro member
    exact Option.isSome_iff_exists.2 (Table.exists_of_mem_keys member)

end

/-! ## The first violation -/

theorem nodup_or_exists_again {α : Type} {before : List α} (distinct : before.Nodup)
    (more : List α) : (before ++ more).Nodup ∨ ∃ front again rest, more = front ++ again :: rest ∧
      (before ++ front).Nodup ∧ again ∈ before ++ front := by
  induction more generalizing before with
  | nil => exact .inl (by rwa [List.append_nil])
  | cons next more inductionHypothesis =>
    by_cases known : next ∈ before
    · exact .inr ⟨[], next, more, rfl, by rwa [List.append_nil], by rwa [List.append_nil]⟩
    · have distinct : (before ++ [next]).Nodup := List.nodup_append.2 ⟨distinct, by simp,
        fun a member b last same => known (by rwa [← List.mem_singleton.1 last, ← same])⟩
      rw [List.append_cons]
      refine (inductionHypothesis distinct).imp id ?_
      rintro ⟨front, again, rest, rfl, distinct, member⟩
      exact ⟨next :: front, again, rest, rfl, by rwa [List.append_cons], by rwa [List.append_cons]⟩

namespace Plan

variable {p : Plan}

theorem toGrammar_of_clean (clean : Clean p.tiers) :
    ∃ index, Holds index (registered 0 p.tiers) ∧
      p.toGrammar = match (index.get? p.default).bind Roles.operator with
        | some default => .ok { tiers := p.tiers, roles := index, default }
        | none => .error (.unknownDefault p.default) := by
  obtain ⟨index, holds, ends⟩ := clean.registers
  have all : registerTiers 0 ∅ p.tiers = .ok index := by
    simpa [registerTiers] using ends []
  exact ⟨index, holds, by rw [toGrammar, all]; rfl⟩

theorem FirstViolation.refused {cause : GrammarError} (first : p.FirstViolation cause) :
    p.toGrammar = .error cause := by
  cases first with
  | emptyTier tiers clean empty =>
    obtain ⟨index, -, ends⟩ := clean.registers
    rw [toGrammar, tiers, ends, registerTiers, empty]
    rfl
  | @duplicateSymbol before after tier front rest symbol role tiers clean position distinct again =>
    obtain ⟨index, holds, ends⟩ := clean.registers
    rw [← Tier.map_use_entries] at position
    obtain ⟨entries, behind, split, rfl, onwards⟩ := List.map_eq_append_iff.1 position
    obtain ⟨e, others, rfl, use, -⟩ := List.map_eq_cons_iff.1 onwards
    rw [← map_use_registered 0] at distinct again
    obtain ⟨next, registers, holds⟩ := holds.acceptsAll before.length distinct
    have refuses := holds.refuses before.length (e := e) (by
      rw [use]
      simpa [Function.comp_def] using again)
    have filled : tier.symbols ≠ [] := by
      intro empty
      have none : tier.uses = [] := by rw [Tier.uses, empty, List.map_nil]
      rw [← Tier.map_use_entries, split] at none
      simp at none
    rw [toGrammar, tiers, ends, registerTiers, List.isEmpty_eq_false_iff.2 filled, registerTier_eq,
      split, List.foldlM_append, registers]
    cases use
    change ((e :: others).foldlM (registerEntry before.length) next >>= _) >>= _ = _
    rw [List.foldlM_cons, refuses]
    rfl
  | unknownDefault clean absent =>
    obtain ⟨index, holds, decided⟩ := toGrammar_of_clean clean
    have none : ((index.get? p.default).bind Roles.operator).isSome = false := by
      rw [← Option.isSome_map, ← lookup_operator]
      exact Bool.eq_false_iff.2 (mt (holds.mem_uses_iff _).1 absent)
    rw [decided, Option.isNone_iff_eq_none.1 (Option.isSome_eq_false_iff.1 none)]

theorem clean_or_violation (tiers : List Tier) : Clean tiers ∨ ∃ before tier after,
    tiers = before ++ tier :: after ∧ Clean before ∧ (tier.symbols = [] ∨
      ∃ front use rest, tier.uses = front ++ use :: rest ∧ (uses before ++ front).Nodup ∧
        use ∈ uses before ++ front) := by
  induction tiers using List.reverseRecOn with
  | nil => exact .inl ⟨nofun, .nil⟩
  | append_singleton tiers tier inductionHypothesis =>
    obtain clean | ⟨before, bad, after, rfl, clean, violation⟩ := inductionHypothesis
    · by_cases empty : tier.symbols = []
      · exact .inr ⟨tiers, tier, [], rfl, clean, .inl empty⟩
      · obtain distinct | again := nodup_or_exists_again clean.distinct tier.uses
        · refine .inl ⟨fun other member => ?_, by simpa [uses] using distinct⟩
          obtain member | member := List.mem_append.1 member
          · exact clean.filled other member
          · rwa [List.mem_singleton.1 member]
        · exact .inr ⟨tiers, tier, [], rfl, clean, .inr again⟩
    · exact .inr ⟨before, bad, after ++ [tier], by simp, clean, violation⟩

theorem accepted_of_clean (clean : Clean p.tiers) (known : (p.default, .operator) ∈ uses p.tiers) :
    ∃ g, p.toGrammar = .ok g := by
  obtain ⟨index, holds, decided⟩ := toGrammar_of_clean clean
  have present := (holds.mem_uses_iff _).2 known
  rw [lookup_operator, Option.isSome_map] at present
  obtain ⟨default, found⟩ := Option.isSome_iff_exists.1 present
  rw [found] at decided
  exact ⟨_, decided⟩

theorem clean_or_firstViolation (p : Plan) :
    (Clean p.tiers ∧ (p.default, .operator) ∈ uses p.tiers) ∨ ∃ cause, p.FirstViolation cause := by
  obtain clean | ⟨before, tier, after, split, clean, violation⟩ := clean_or_violation p.tiers
  · by_cases known : (p.default, .operator) ∈ uses p.tiers
    · exact .inl ⟨clean, known⟩
    · exact .inr ⟨_, .unknownDefault clean known⟩
  · obtain empty | ⟨front, ⟨symbol, role⟩, rest, position, distinct, again⟩ := violation
    · exact .inr ⟨_, .emptyTier split clean empty⟩
    · exact .inr ⟨_, .duplicateSymbol split clean position distinct again⟩

end Plan

/-! ## Main result -/

/-- Whether what a grammar looks up is what the tiers of a plan list.  A symbol stands at most once
    in a role, so each lookup finds the one row that has it or none. -/
structure Indexes (g : Grammar) (p : Plan) : Prop where
  tiers : g.tiers = p.tiers
  operator (symbol : String) (role : Role Operator) :
    (g.roles? symbol).bind Roles.operator = some role ↔ ∃ associativity members,
      p.tiers[role.row]? = some (.operators associativity members) ∧ role.member ∈ members ∧
        role.member.symbol = symbol
  modifier (symbol : String) (side : Side) (role : Role Modifier) :
    ((g.roles? symbol).bind fun r => r.modifier side) = some role ↔ ∃ entries action,
      p.tiers[role.row]? = some (.modifiers side entries) ∧ (symbol, action) ∈ entries ∧
        role.member = ⟨symbol, side, action⟩
  operatorRow (symbol : String) (row : Nat) :
    g.operatorRow? symbol = some row ↔ ∃ associativity members,
      p.tiers[row]? = some (.operators associativity members) ∧
        symbol ∈ members.map Operator.symbol
  modifierRow (symbol : String) (side : Side) (row : Nat) :
    g.modifierRow? symbol side = some row ↔ ∃ entries,
      p.tiers[row]? = some (.modifiers side entries) ∧ symbol ∈ entries.map Prod.fst
  associativity (symbol : String) (associativity : Associativity) :
    g.associativity? symbol = some associativity ↔ ∃ (row : Nat) (members : List Operator),
      p.tiers[row]? = some (.operators associativity members) ∧
        symbol ∈ members.map Operator.symbol
  isSymbol (text : String) : g.isSymbol text ↔ ∃ tier ∈ p.tiers, text ∈ tier.symbols
  symbols (text : String) : text ∈ g.symbols ↔ ∃ tier ∈ p.tiers, text ∈ tier.symbols
  sorted : g.symbols.Pairwise (· < ·)
  default : (g.roles? p.default).bind Roles.operator = some g.default

theorem Holds.sorted {tiers : List Tier} {index : Table String Roles} {done : List (Role Entry)}
    (holds : Holds index done) (default : Role Operator) :
    (Grammar.mk tiers index default).symbols.Pairwise (· < ·) := by
  have ordered : (Grammar.mk tiers index default).symbols.Pairwise fun a b => a ≤ b := by
    refine (List.pairwise_mergeSort ?_ ?_ _).imp fun le => not_lt.1 (of_decide_eq_true le)
    · intro a b c first second
      rw [decide_eq_true_eq, not_lt] at *
      exact first.trans second
    · intro a b
      rw [Bool.or_eq_true, decide_eq_true_eq, decide_eq_true_eq, not_lt, not_lt]
      exact le_total a b
  have distinct : (Grammar.mk tiers index default).symbols.Nodup :=
    (List.mergeSort_perm ..).nodup_iff.2 holds.distinct
  exact ordered.imp₂ (fun _ _ le ne => lt_of_le_of_ne le ne) distinct

theorem Plan.clean_of_toGrammar {p : Plan} {g : Grammar} (accepted : p.toGrammar = .ok g) :
    Clean p.tiers ∧ (p.default, .operator) ∈ uses p.tiers := by
  obtain clean | ⟨cause, first⟩ := p.clean_or_firstViolation
  · exact clean
  · rw [first.refused] at accepted
    cases accepted

theorem Plan.indexes_of_toGrammar {p : Plan} {g : Grammar} (accepted : p.toGrammar = .ok g) :
    g.Indexes p := by
  obtain ⟨index, holds, decided⟩ := toGrammar_of_clean (clean_of_toGrammar accepted).1
  rw [accepted] at decided
  cases found : (index.get? p.default).bind Roles.operator with
  | none =>
    rw [found] at decided
    cases decided
  | some default =>
    rw [found] at decided
    cases decided
    exact {
      tiers := rfl
      operator := holds.operator_iff
      modifier := holds.modifier_iff
      operatorRow := holds.operatorRow_iff
      modifierRow := holds.modifierRow_iff
      associativity := holds.associativity_iff default
      isSymbol := holds.isSymbol_iff default
      symbols := fun text => (List.mergeSort_perm ..).mem_iff.trans (holds.mem_keys_iff text)
      sorted := holds.sorted default
      default := found }

/-- The registry is an index of its tiers.  Whatever calls made a plan, it is a grammar exactly if
    no tier is empty, no symbol stands twice in one role and the default symbol is an operator;
    else its first violation is reported.  A grammar looks up exactly what its tiers list. -/
theorem registry_indexes_tiers (calls : List Plan.Call) :
    let p := Plan.ofCalls calls
    ((∃ g, p.toGrammar = .ok g) ↔ (∀ tier ∈ p.tiers, tier.symbols ≠ []) ∧ (uses p.tiers).Nodup ∧
      (p.default, .operator) ∈ uses p.tiers) ∧
    (∀ cause, p.toGrammar = .error cause ↔ p.FirstViolation cause) ∧
    ∀ g, p.toGrammar = .ok g → g.Indexes p := by
  intro p
  refine ⟨⟨?_, fun ⟨filled, distinct, known⟩ => Plan.accepted_of_clean ⟨filled, distinct⟩ known⟩,
    fun cause => ⟨fun refused => ?_, fun first => first.refused⟩,
    fun g accepted => Plan.indexes_of_toGrammar accepted⟩
  · rintro ⟨g, accepted⟩
    obtain ⟨clean, known⟩ := Plan.clean_of_toGrammar accepted
    exact ⟨clean.filled, clean.distinct, known⟩
  · obtain ⟨clean, known⟩ | ⟨first, violation⟩ := p.clean_or_firstViolation
    · obtain ⟨g, accepted⟩ := Plan.accepted_of_clean clean known
      rw [accepted] at refused
      cases refused
    · rw [violation.refused] at refused
      cases refused
      exact violation

theorem inserted_tier_is_indexed :
    let p := Plan.ofCalls [.append (.operators .left [⟨"+", .combine .add⟩, ⟨"-", .combine .sub⟩]),
      .append (.operators .right [⟨"^", .combine .pow⟩]),
      .insertAt 1 (.modifiers .before [("-", .transform UnaryRule.negate)]), .withDefault "^"]
    ∃ g, p.toGrammar = .ok g ∧ g.modifierRow? "-" .before = some 1 ∧
      g.operatorRow? "^" = some 2 := by
  intro p
  obtain ⟨g, accepted⟩ : ∃ g, p.toGrammar = .ok g := ⟨_, rfl⟩
  have indexes := (registry_indexes_tiers _).2.2 g accepted
  exact ⟨g, accepted, (indexes.modifierRow "-" .before 1).2 ⟨_, rfl, by decide⟩,
    (indexes.operatorRow "^" 2).2 ⟨_, _, rfl, by decide⟩⟩

end Grammar

end Abacus
