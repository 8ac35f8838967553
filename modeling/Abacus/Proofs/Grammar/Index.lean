import Abacus.Proofs.Parse.Fallible

/-!
# The index of a grammar

Every role in the index of a grammar leads to a tier of the right kind that has
the symbol as a member.
-/

namespace Abacus

open Fallible

/-- Whether the roles of a symbol agree with the tiers. -/
structure Roles.Fit (tiers : List Tier) (symbol : String) (r : Roles) : Prop where
  operator {role : Role Operator} : r.operator = some role → ∃ associativity members,
    tiers[role.row]? = some (.operators associativity members) ∧ role.member ∈ members ∧
      role.member.symbol = symbol
  modifier {side : Side} {role : Role Modifier} : r.modifier side = some role → ∃ entries action,
    tiers[role.row]? = some (.modifiers side entries) ∧ (symbol, action) ∈ entries ∧
      role.member = ⟨symbol, side, action⟩

theorem Roles.modifier_setModifier (r : Roles) (side other : Side) (role : Role Modifier) :
    (r.setModifier side role).modifier other =
      if side = other then some role else r.modifier other := by
  cases side <;> cases other <;> rfl

theorem Roles.operator_setModifier (r : Roles) (side : Side) (role : Role Modifier) :
    (r.setModifier side role).operator = r.operator := by
  cases side <;> rfl

namespace Grammar

def IndexFits (tiers : List Tier) (index : Table String Roles) : Prop :=
  ∀ symbol roles, index.get? symbol = some roles → roles.Fit tiers symbol

theorem IndexFits.getD {tiers : List Tier} {index : Table String Roles}
    (fits : IndexFits tiers index) (symbol : String) :
    ((index.get? symbol).getD {}).Fit tiers symbol := by
  cases found : index.get? symbol with
  | some roles => exact fits symbol roles found
  | none =>
    refine ⟨fun impossible => ?_, @fun side _ impossible => ?_⟩
    · cases impossible
    · cases side <;> cases impossible

theorem IndexFits.insert {tiers : List Tier} {index : Table String Roles}
    (fits : IndexFits tiers index) {symbol : String} {roles : Roles}
    (added : roles.Fit tiers symbol) : IndexFits tiers (index.insert symbol roles) := by
  intro other roles' found
  rw [Table.get?_insert] at found
  split at found
  · rename_i same
    cases found
    exact same ▸ added
  · exact fits other roles' found

theorem IndexFits.registerOperator {tiers : List Tier} {index index' : Table String Roles}
    (fits : IndexFits tiers index) {row : Nat} {associativity : Associativity}
    {members : List Operator} (tier : tiers[row]? = some (.operators associativity members))
    {o : Operator} (member : o ∈ members)
    (ends : Grammar.registerOperator row index o = .ok index') : IndexFits tiers index' := by
  unfold Grammar.registerOperator at ends
  dsimp only at ends
  split at ends
  · cases ends
  · cases ends
    have before := fits.getD o.symbol
    refine fits.insert ⟨fun same => ?_, fun found => before.modifier found⟩
    cases same
    exact ⟨associativity, members, tier, member, rfl⟩

theorem IndexFits.registerModifier {tiers : List Tier} {index index' : Table String Roles}
    (fits : IndexFits tiers index) {row : Nat} {side : Side}
    {entries : List (String × Modifier.Action)}
    (tier : tiers[row]? = some (.modifiers side entries)) {entry : String × Modifier.Action}
    (member : entry ∈ entries) (ends : Grammar.registerModifier row side index entry = .ok index') :
    IndexFits tiers index' := by
  obtain ⟨symbol, action⟩ := entry
  unfold Grammar.registerModifier at ends
  dsimp only at ends
  split at ends
  · cases ends
  · cases ends
    have before := fits.getD symbol
    refine fits.insert ⟨fun found => ?_, @fun other _ found => ?_⟩
    · rw [Roles.operator_setModifier] at found
      exact before.operator found
    · rw [Roles.modifier_setModifier] at found
      split at found
      · rename_i same
        cases same
        cases found
        exact ⟨entries, action, tier, member, rfl⟩
      · exact before.modifier found

theorem IndexFits.registerTier {tiers : List Tier} {index index' : Table String Roles}
    (fits : IndexFits tiers index) {row : Nat} {tier : Tier} (here : tiers[row]? = some tier)
    (ends : Grammar.registerTier row index tier = .ok index') : IndexFits tiers index' := by
  cases tier with
  | operators associativity members =>
    exact foldlM_keeps (P := IndexFits tiers)
      (fun _ member _ _ fits ends => fits.registerOperator here member ends) fits ends
  | modifiers side entries =>
    exact foldlM_keeps (P := IndexFits tiers)
      (fun _ member _ _ fits ends => fits.registerModifier here member ends) fits ends

theorem IndexFits.registerTiers {before tiers : List Tier} {index index' : Table String Roles}
    (fits : IndexFits (before ++ tiers) index)
    (ends : Grammar.registerTiers before.length index tiers = .ok index') :
    IndexFits (before ++ tiers) index' := by
  induction tiers generalizing before index with
  | nil =>
    cases ends
    exact fits
  | cons tier tiers inductionHypothesis =>
    rw [List.append_cons] at fits ⊢
    rw [Grammar.registerTiers] at ends
    split at ends
    · cases ends
    · obtain ⟨next, registered, ends⟩ := bind_eq_ok.1 ends
      have length : before.length + 1 = (before ++ [tier]).length := by simp
      have here : (before ++ [tier] ++ tiers)[before.length]? = some tier := by simp
      rw [length] at ends
      exact inductionHypothesis (fits.registerTier here registered) ends

theorem fit_of_toGrammar {p : Plan} {g : Grammar} (accepted : p.toGrammar = .ok g)
    {symbol : String} {roles : Roles} (found : g.roles? symbol = some roles) :
    roles.Fit g.tiers symbol := by
  obtain ⟨index, registered, ends⟩ := bind_eq_ok.1 accepted
  have empty : IndexFits ([] ++ p.tiers) ∅ := fun _ _ impossible => nomatch impossible
  have fits := empty.registerTiers registered
  split at ends
  · cases ends
    exact fits symbol roles found
  · cases ends

theorem default_of_toGrammar {p : Plan} {g : Grammar} (accepted : p.toGrammar = .ok g) :
    ∃ roles, g.roles? p.default = some roles ∧ roles.operator = some g.default := by
  obtain ⟨index, registered, ends⟩ := bind_eq_ok.1 accepted
  split at ends
  · rename_i default found
    cases ends
    obtain ⟨roles, present, operator⟩ := Option.bind_eq_some_iff.1 found
    exact ⟨roles, present, operator⟩
  · cases ends

def operator? (g : Grammar) (symbol : String) : Option Operator :=
  ((g.roles? symbol).bind Roles.operator).map Role.member

def modifier? (g : Grammar) (symbol : String) (side : Side) : Option Modifier :=
  ((g.roles? symbol).bind fun r => r.modifier side).map Role.member

end Grammar

end Abacus
