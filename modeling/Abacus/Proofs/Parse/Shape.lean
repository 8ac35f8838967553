import Abacus.Grammar.Standard
import Abacus.Proofs.Grammar.Index
import Abacus.Proofs.Parse.Grouping
import Mathlib.Tactic.IntervalCases

/-!
# The shape of grouped expressions

Which expressions the standard tiers group a line into, tier by tier, and that
written out as items without further parentheses each of them is grouped into
itself again.

A sign such as `-` binds looser than `^` but takes all that is left behind it, so
the right operand of a power and the operand of a step such as `++` may end with a
sign that binds looser than they do.
-/

namespace Abacus

namespace Grammar

def Operates (g : Grammar) (row : Nat) (o : Operator) : Prop :=
  ∃ roles, g.roles? o.symbol = some roles ∧ roles.operator = some ⟨row, o⟩

def Modifies (g : Grammar) (row : Nat) (m : Modifier) : Prop :=
  ∃ roles, g.roles? m.symbol = some roles ∧ roles.modifier m.side = some ⟨row, m⟩

theorem Operates.row? {g : Grammar} {row : Nat} {o : Operator} (operates : g.Operates row o) :
    g.operatorRow? o.symbol = some row := by
  obtain ⟨roles, found, operator⟩ := operates
  simp [operatorRow?, found, operator]

theorem Modifies.row? {g : Grammar} {row : Nat} {m : Modifier} (modifies : g.Modifies row m) :
    g.modifierRow? m.symbol m.side = some row := by
  obtain ⟨roles, found, modifier⟩ := modifies
  simp [modifierRow?, found, modifier]

theorem rows_of_operators {row : Nat} {a : Associativity} {members : List Operator}
    (tier : standard.tiers[row]? = some (.operators a members)) : row < 8 ∨ row = 9 := by
  have bound : row < 12 := (List.getElem?_eq_some_iff.1 tier).1
  interval_cases row <;> first | omega | cases tier

theorem rows_of_modifiers {row : Nat} {side : Side} {entries : List (String × Modifier.Action)}
    (tier : standard.tiers[row]? = some (.modifiers side entries)) :
    side = .before ∧ (row = 8 ∨ row = 10) ∨ side = .after ∧ row = 11 := by
  have bound : row < 12 := (List.getElem?_eq_some_iff.1 tier).1
  interval_cases row <;> cases tier <;> simp

theorem row_of_operates {row : Nat} {o : Operator} (operates : standard.Operates row o) :
    row < 8 ∨ row = 9 := by
  obtain ⟨roles, found, operator⟩ := operates
  obtain ⟨a, members, tier, _⟩ := (fit_of_toGrammar toGrammar_standard found).operator operator
  exact rows_of_operators tier

theorem row_of_modifies {row : Nat} {m : Modifier} (modifies : standard.Modifies row m) :
    (m.side = .before → row = 8 ∨ row = 10) ∧ (m.side = .after → row = 11) := by
  obtain ⟨roles, found, modifier⟩ := modifies
  obtain ⟨entries, action, tier, _⟩ := (fit_of_toGrammar toGrammar_standard found).modifier modifier
  have rows := rows_of_modifiers tier
  constructor <;> intro side <;> rw [side] at rows <;> simpa using rows

end Grammar

namespace Expr

open Grammar (standard)

/-- Whether an expression is an operand by itself: no operation and no modification. -/
def isOperand : Expr → Bool
  | .literal _ | .cell _ | .call _ _ | .parens _ => true
  | .binary _ _ _ | .unary _ _ | .branches _ _ => false

def isBinary : Expr → Bool
  | .binary _ _ _ => true
  | _ => false

theorem isBinary_of_isOperand {e : Expr} (operand : e.isOperand) : e.isBinary = false := by
  cases e <;> first | rfl | cases operand

/-- Operands with modifiers behind them. -/
inductive Postfixed : Expr → Prop where
  | operand {e : Expr} : e.isOperand → Postfixed e
  | after {m : Modifier} {e : Expr} : m.side = .after → standard.Modifies 11 m → Postfixed e →
      Postfixed (.unary m e)

/-- Steps before an operand with modifiers behind it. -/
inductive Stepped : Expr → Prop where
  | postfixed {e : Expr} : Postfixed e → Stepped e
  | step {m : Modifier} {e : Expr} : standard.Modifies 10 m → Stepped e → Stepped (.unary m e)

/-- What is grouped where no operator but the power is left. -/
inductive Signed : Expr → Prop where
  | postfixed {e : Expr} : Postfixed e → Signed e
  | sign {m : Modifier} {e : Expr} : standard.Modifies 8 m → Signed e → Signed (.unary m e)
  | step {m : Modifier} {e : Expr} : standard.Modifies 10 m → Signed e → e.isBinary = false →
      Signed (.unary m e)
  | power {o : Operator} {l r : Expr} : standard.Operates 9 o → Stepped l → Signed r →
      Signed (.binary o l r)

/-- What is grouped by the tiers from some row of operators on. -/
inductive Chained : Nat → Expr → Prop where
  | signed {e : Expr} : Signed e → Chained 8 e
  | tighter {row : Nat} {e : Expr} : row < 8 → Chained (row + 1) e → Chained row e
  | left {row : Nat} {members : List Operator} {o : Operator} {l r : Expr} :
      standard.tiers[row]? = some (.operators .left members) → standard.Operates row o → row < 8 →
      Chained row l → Chained (row + 1) r → Chained row (.binary o l r)
  | right {row : Nat} {members : List Operator} {o : Operator} {l r : Expr} :
      standard.tiers[row]? = some (.operators .right members) → standard.Operates row o → row < 8 →
      Chained (row + 1) l → Chained row r → Chained row (.binary o l r)

theorem Stepped.signed {e : Expr} (stepped : Stepped e) : Signed e ∧ e.isBinary = false := by
  induction stepped with
  | postfixed postfixed =>
    refine ⟨.postfixed postfixed, ?_⟩
    cases postfixed with
    | operand operand => exact isBinary_of_isOperand operand
    | after _ _ _ => rfl
  | step modifies _ inductionHypothesis =>
    exact ⟨.step modifies inductionHypothesis.1 inductionHypothesis.2, rfl⟩

theorem Chained.loose {row : Nat} {e : Expr} (chained : Chained row e) : row ≤ 8 := by
  cases chained with
  | signed _ => exact Nat.le_refl 8
  | tighter loose _ | left _ _ loose _ _ | right _ _ loose _ _ => exact Nat.le_of_lt loose

theorem Chained.weaken {row looser : Nat} {e : Expr} (chained : Chained row e) (le : looser ≤ row) :
    Chained looser e := by
  induction row with
  | zero => exact Nat.le_zero.1 le ▸ chained
  | succ row inductionHypothesis =>
    rcases Nat.of_le_succ le with le | rfl
    · exact inductionHypothesis (.tighter chained.loose chained) le
    · exact chained

theorem Signed.chained {row : Nat} {e : Expr} (signed : Signed e) (loose : row ≤ 8) :
    Chained row e :=
  (Chained.signed signed).weaken loose

theorem Postfixed.chained {row : Nat} {e : Expr} (postfixed : Postfixed e) (loose : row ≤ 8) :
    Chained row e :=
  (Signed.postfixed postfixed).chained loose

/-- The items of an expression in the order of the line; what is in parentheses and the arguments
    of a call stay inside of their operand. -/
def items (g : Grammar) : Expr → List Parse.Item
  | .binary o l r => l.items g ++ .operator ⟨(g.operatorRow? o.symbol).getD 0, o⟩ :: r.items g
  | .unary m e =>
    let role : Role Modifier := ⟨(g.modifierRow? m.symbol m.side).getD 0, m⟩
    match m.side with
    | .before => .before role :: e.items g
    | .after => e.items g ++ [.after role]
  | e => [.operand e]

theorem items_operand (g : Grammar) {e : Expr} (operand : e.isOperand) :
    e.items g = [.operand e] := by
  cases e <;> first | rfl | cases operand

theorem items_ne_nil (g : Grammar) (e : Expr) : e.items g ≠ [] := by
  unfold items
  split
  · simp
  · split <;> simp
  · simp

theorem eq_of_items_operand {g : Grammar} {e x : Expr} (items : e.items g = [.operand x]) :
    e = x := by
  cases e with
  | binary o l r =>
    rw [Expr.items] at items
    have := congrArg List.length items
    have := List.length_pos_iff.2 (items_ne_nil g l)
    simp at *
    omega
  | unary m e =>
    rw [Expr.items] at items
    cases side : m.side with
    | before => simp [side] at items
    | after =>
      have last := congrArg List.getLast? items
      simp [side] at last
  | literal _ | cell _ | call _ _ | parens _ | branches _ _ =>
    cases items
    rfl

theorem items_binary {g : Grammar} {row : Nat} {o : Operator} (operates : g.Operates row o)
    (l r : Expr) : (Expr.binary o l r).items g = l.items g ++ .operator ⟨row, o⟩ :: r.items g := by
  rw [items, operates.row?]
  rfl

theorem items_before {g : Grammar} {row : Nat} {m : Modifier} (modifies : g.Modifies row m)
    (side : m.side = .before) (e : Expr) :
    (Expr.unary m e).items g = .before ⟨row, m⟩ :: e.items g := by
  have found := modifies.row?
  rw [side] at found
  simp [items, side, found]

theorem items_after {g : Grammar} {row : Nat} {m : Modifier} (modifies : g.Modifies row m)
    (side : m.side = .after) (e : Expr) :
    (Expr.unary m e).items g = e.items g ++ [.after ⟨row, m⟩] := by
  have found := modifies.row?
  rw [side] at found
  simp [items, side, found]

end Expr

namespace Parse

open Grammar (standard)

/-- Whether an item is decided, registered in the standard grammar, and no looser than a row. -/
def Item.Within (row : Nat) : Item → Prop
  | .operand e => e.isOperand
  | .symbol _ _ => False
  | .operator role => row ≤ role.row ∧ standard.Operates role.row role.member
  | .before role => row ≤ role.row ∧ role.member.side = .before ∧ standard.Modifies role.row role.member
  | .after role => row ≤ role.row ∧ role.member.side = .after ∧ standard.Modifies role.row role.member

theorem Item.Within.weaken {row row' : Nat} {i : Item} (within : i.Within row) (le : row' ≤ row) :
    i.Within row' := by
  cases i with
  | operand e => exact within
  | symbol text roles => exact within
  | operator role | before role | after role => exact ⟨Nat.le_trans le within.1, within.2⟩

def partsOf (e : Expr) : List Part := (e.items standard).map Part.item

theorem partsOf_ne_nil (e : Expr) : partsOf e ≠ [] := by
  simpa [partsOf] using e.items_ne_nil standard

/-! ## What is written out is grouped again -/

theorem forall_partsOf {P : Part → Prop} {e : Expr} :
    (∀ q ∈ partsOf e, P q) ↔ ∀ i ∈ e.items standard, P (.item i) := by
  simp [partsOf]

theorem Item.Within.passes {row : Nat} {i : Item} (within : i.Within row) :
    (∀ looser, looser < row → (Part.item i).operator? looser = none ∧
      ∀ side, (Part.item i).modifier? looser side = none) := by
  intro looser less
  cases i with
  | operand _ | symbol _ _ => exact ⟨rfl, fun _ => rfl⟩
  | operator role =>
    have other : role.row ≠ looser := by have := within.1; omega
    exact ⟨by simp [Part.operator?, other], fun _ => rfl⟩
  | before role | after role =>
    have other : role.row ≠ looser := by have := within.1; omega
    exact ⟨rfl, fun side => by simp [Part.modifier?, other]⟩

theorem Item.Within.free {i : Item} (within : i.Within 8) :
    (Part.item i).ends 8 .before = false := by
  cases i with
  | operand _ | symbol _ _ | before _ => rfl
  | operator role =>
    have := Grammar.row_of_operates within.2
    have := within.1
    have tighter : ¬ role.row ≤ 8 := by omega
    simp [Part.ends, tighter]
  | after role =>
    have := (Grammar.row_of_modifies within.2.2).2 within.2.1
    have tighter : ¬ role.row ≤ 8 := by omega
    simp [Part.ends, tighter]

theorem Item.Within.free_of_step {i : Item} (within : i.Within 10) :
    (Part.item i).ends 10 .before = false := by
  cases i with
  | operand _ | symbol _ _ | before _ => rfl
  | operator role =>
    have := Grammar.row_of_operates within.2
    have := within.1
    omega
  | after role =>
    have := (Grammar.row_of_modifies within.2.2).2 within.2.1
    have tighter : ¬ role.row ≤ 10 := by omega
    simp [Part.ends, tighter]

end Parse

namespace Expr

open Grammar (standard)
open Parse

theorem Postfixed.within {e : Expr} (postfixed : Postfixed e) :
    ∀ i ∈ e.items standard, i.Within 11 := by
  induction postfixed with
  | operand operand =>
    rw [items_operand _ operand]
    exact List.forall_mem_singleton.2 operand
  | after side modifies _ inductionHypothesis =>
    rw [items_after modifies side]
    exact List.forall_mem_append.2 ⟨inductionHypothesis,
      List.forall_mem_singleton.2 ⟨Nat.le_refl _, side, modifies⟩⟩

theorem side_of_modifies {row : Nat} {m : Modifier} (modifies : standard.Modifies row m)
    (before : row ≠ 11) : m.side = .before := by
  cases side : m.side with
  | before => rfl
  | after => exact absurd ((Grammar.row_of_modifies modifies).2 side) before

theorem Stepped.within {e : Expr} (stepped : Stepped e) : ∀ i ∈ e.items standard, i.Within 10 := by
  induction stepped with
  | postfixed postfixed => exact fun i member => (postfixed.within i member).weaken (by omega)
  | step modifies _ inductionHypothesis =>
    have side := side_of_modifies modifies (by omega)
    rw [items_before modifies side]
    exact List.forall_mem_cons.2 ⟨⟨Nat.le_refl _, side, modifies⟩, inductionHypothesis⟩

theorem Signed.within {e : Expr} (signed : Signed e) : ∀ i ∈ e.items standard, i.Within 8 := by
  induction signed with
  | postfixed postfixed => exact fun i member => (postfixed.within i member).weaken (by omega)
  | sign modifies _ inductionHypothesis | step modifies _ _ inductionHypothesis =>
    have side := side_of_modifies modifies (by omega)
    rw [items_before modifies side]
    exact List.forall_mem_cons.2 ⟨⟨by simp, side, modifies⟩, inductionHypothesis⟩
  | power operates stepped _ inductionHypothesis =>
    rw [items_binary operates]
    exact List.forall_mem_append.2 ⟨fun i member => (stepped.within i member).weaken (by omega),
      List.forall_mem_cons.2 ⟨⟨by simp, operates⟩, inductionHypothesis⟩⟩

theorem Chained.within {row : Nat} {e : Expr} (chained : Chained row e) :
    ∀ i ∈ e.items standard, i.Within row := by
  induction chained with
  | signed signed => exact signed.within
  | tighter _ _ inductionHypothesis =>
    exact fun i member => (inductionHypothesis i member).weaken (by omega)
  | left _ operates _ _ _ leftHypothesis rightHypothesis =>
    rw [items_binary operates]
    exact List.forall_mem_append.2 ⟨leftHypothesis, List.forall_mem_cons.2
      ⟨⟨Nat.le_refl _, operates⟩, fun i member => (rightHypothesis i member).weaken (by omega)⟩⟩
  | right _ operates _ _ _ leftHypothesis rightHypothesis =>
    rw [items_binary operates]
    exact List.forall_mem_append.2 ⟨fun i member => (leftHypothesis i member).weaken (by omega),
      List.forall_mem_cons.2 ⟨⟨Nat.le_refl _, operates⟩, rightHypothesis⟩⟩

/-! ### Modifiers -/

theorem Postfixed.settles {e : Expr} (postfixed : Postfixed e) :
    Settles [] 11 .after (partsOf e) e := by
  induction postfixed with
  | @operand e operand =>
    rw [partsOf, items_operand _ operand]
    refine .of_none ?_ (List.cons_ne_nil _ _) ?_ rfl
    · simp [Part.modifier?]
    · simp [Part.ends]
  | @after m e side modifies _ inductionHypothesis =>
    rw [partsOf, items_after modifies side, List.map_append]
    exact inductionHypothesis.after (by simp [Part.modifier?])

theorem Postfixed.groups {e : Expr} (postfixed : Postfixed e) :
    groupTiers (standard.tiers.drop 11) 11 (partsOf e) = .ok e :=
  postfixed.settles.groups _

theorem Stepped.settles {e : Expr} (stepped : Stepped e) :
    Settles (standard.tiers.drop 11) 10 .before (partsOf e) e := by
  induction stepped with
  | @postfixed e postfixed =>
    have within := postfixed.within
    refine .of_none ?_ (partsOf_ne_nil e) ?_ postfixed.groups
    · exact forall_partsOf.2 fun i member => ((within i member).passes 10 (by omega)).2 .before
    · exact forall_partsOf.2 fun i member => ((within i member).weaken (by omega)).free_of_step
  | @step m e modifies _ inductionHypothesis =>
    rw [partsOf, items_before modifies (side_of_modifies modifies (by omega)), List.map_cons]
    exact inductionHypothesis.before (by simp [Part.modifier?])

theorem Stepped.groups {e : Expr} (stepped : Stepped e) :
    groupTiers (standard.tiers.drop 10) 10 (partsOf e) = .ok e :=
  stepped.settles.groups _

/-- The signs of an expression leave no power, and then its steps are grouped. -/
def SettlesSteps (e : Expr) : Prop :=
  ∃ settled, groupBefore (groupTiers (standard.tiers.drop 9) 9) 8 (partsOf e) = .ok settled ∧
    settled ≠ [] ∧ (∀ q ∈ settled, q.ends 8 .before = false) ∧
      (∀ q ∈ settled, q.operator? 9 = none) ∧ Settles (standard.tiers.drop 11) 10 .before settled e

theorem SettlesSteps.settles {e : Expr} (settles : SettlesSteps e) :
    Settles (standard.tiers.drop 9) 8 .before (partsOf e) e := by
  obtain ⟨settled, applied, filled, free, none, steps⟩ := settles
  refine ⟨settled, applied, filled, free, ?_⟩
  have tighter : groupTiers (standard.tiers.drop 9) 9 settled =
      groupTiers (standard.tiers.drop 10) 10 settled := groupTiers_tighter none
  rw [tighter]
  exact steps.groups _

theorem SettlesSteps.sign {m : Modifier} {e : Expr} (modifies : standard.Modifies 8 m)
    (settles : Settles (standard.tiers.drop 9) 8 .before (partsOf e) e) :
    SettlesSteps (.unary m e) := by
  obtain ⟨settled, applied, filled, free, groups⟩ := settles
  have found : (Part.item (.before ⟨8, m⟩)).modifier? 8 .before = some m := by simp [Part.modifier?]
  refine ⟨[.grouped (.unary m e)], ?_, List.cons_ne_nil _ _, ?_, ?_, .grouped _ _ _ _⟩
  · rw [partsOf, items_before modifies (side_of_modifies modifies (by omega)), List.map_cons]
    exact groupBefore_cons found applied filled free groups
  · simp [Part.ends]
  · simp [Part.operator?]

theorem SettlesSteps.step {m : Modifier} {e : Expr} (modifies : standard.Modifies 10 m)
    (settles : SettlesSteps e) : SettlesSteps (.unary m e) := by
  obtain ⟨settled, applied, filled, free, none, steps⟩ := settles
  refine ⟨.item (.before ⟨10, m⟩) :: settled, ?_, List.cons_ne_nil _ _, ?_, ?_,
    steps.before (by simp [Part.modifier?])⟩
  · have passes : ∀ q ∈ [Part.item (.before ⟨10, m⟩)], q.modifier? 8 .before = Option.none := by
      simp [Part.modifier?]
    rw [partsOf, items_before modifies (side_of_modifies modifies (by omega)), List.map_cons,
      ← List.singleton_append, groupBefore_append passes]
    change (groupBefore _ 8 (partsOf e)).map _ = _
    rw [applied]
    rfl
  · exact List.forall_mem_cons.2 ⟨by simp [Part.ends], free⟩
  · exact List.forall_mem_cons.2 ⟨rfl, none⟩

theorem Signed.settles {e : Expr} (signed : Signed e) :
    Settles (standard.tiers.drop 9) 8 .before (partsOf e) e ∧
      (e.isBinary = false → SettlesSteps e) := by
  induction signed with
  | @postfixed e postfixed =>
    have within := postfixed.within
    have steps : SettlesSteps e := by
      refine ⟨partsOf e, groupBefore_of_none ?_, partsOf_ne_nil e, ?_, ?_,
        (Stepped.postfixed postfixed).settles⟩
      · exact forall_partsOf.2 fun i member => ((within i member).passes 8 (by omega)).2 .before
      · exact forall_partsOf.2 fun i member => ((within i member).weaken (by omega)).free
      · exact forall_partsOf.2 fun i member => ((within i member).passes 9 (by omega)).1
    exact ⟨steps.settles, fun _ => steps⟩
  | sign modifies _ inductionHypothesis =>
    have steps := SettlesSteps.sign modifies inductionHypothesis.1
    exact ⟨steps.settles, fun _ => steps⟩
  | step modifies _ alone inductionHypothesis =>
    have steps := (inductionHypothesis.2 alone).step modifies
    exact ⟨steps.settles, fun _ => steps⟩
  | @power o l r operates stepped _ inductionHypothesis =>
    refine ⟨?_, fun impossible => by cases impossible⟩
    obtain ⟨settled, applied, filled, free, groups⟩ := inductionHypothesis.1
    have within := stepped.within
    have found : (Part.item (.operator ⟨9, o⟩)).operator? 9 = some o := by simp [Part.operator?]
    -- The signs in front of the exponent settle first, and then the power is grouped.
    refine ⟨partsOf l ++ .item (.operator ⟨9, o⟩) :: settled, ?_, by simp, ?_, ?_⟩
    · have passes : ∀ q ∈ partsOf l ++ [.item (.operator ⟨9, o⟩)], q.modifier? 8 .before = none :=
        List.forall_mem_append.2 ⟨forall_partsOf.2 fun i member =>
          ((within i member).passes 8 (by omega)).2 .before, by simp [Part.modifier?]⟩
      have cut : partsOf (.binary o l r) = (partsOf l ++ [.item (.operator ⟨9, o⟩)]) ++ partsOf r := by
        simp [partsOf, items_binary operates]
      change groupBefore _ 8 _ = _
      rw [cut, groupBefore_append passes]
      change groupBefore _ 8 (partsOf r) = _ at applied
      rw [applied]
      simp [Except.map]
    · refine List.forall_mem_append.2 ⟨forall_partsOf.2 fun i member => ?_,
        List.forall_mem_cons.2 ⟨by simp [Part.ends], free⟩⟩
      exact ((within i member).weaken (by omega)).free
    · exact groupTiers_right found (forall_partsOf.2 fun i member =>
        ((within i member).passes 9 (by omega)).1) stepped.groups groups

theorem Signed.groups {e : Expr} (signed : Signed e) :
    groupTiers (standard.tiers.drop 8) 8 (partsOf e) = .ok e :=
  signed.settles.1.groups _

/-! ### Operators -/

theorem tiers_drop {row : Nat} {tier : Tier} (found : standard.tiers[row]? = some tier) :
    standard.tiers.drop row = tier :: standard.tiers.drop (row + 1) := by
  obtain ⟨bound, rfl⟩ := List.getElem?_eq_some_iff.1 found
  exact List.drop_eq_getElem_cons bound

theorem exists_operators {row : Nat} (loose : row < 8) :
    ∃ a members, standard.tiers[row]? = some (.operators a members) := by
  interval_cases row <;> exact ⟨_, _, rfl⟩

/-- Written out, an expression that has the shape of a tier is grouped by the tiers from that one
    on into itself. -/
theorem Chained.groups {row : Nat} {e : Expr} (chained : Chained row e) :
    groupTiers (standard.tiers.drop row) row (partsOf e) = .ok e := by
  induction chained with
  | signed signed => exact signed.groups
  | @tighter row e loose chained inductionHypothesis =>
    obtain ⟨a, members, tier⟩ := exists_operators loose
    rw [tiers_drop tier, groupTiers_tighter]
    · exact inductionHypothesis
    · exact forall_partsOf.2 fun i member => ((chained.within i member).passes row (by omega)).1
  | @left row members o l r tier operates loose _ chained leftHypothesis rightHypothesis =>
    have found : (Part.item (.operator ⟨row, o⟩)).operator? row = some o := by simp [Part.operator?]
    rw [tiers_drop tier] at leftHypothesis ⊢
    rw [partsOf, items_binary operates, List.map_append, List.map_cons]
    refine groupTiers_left found ?_ leftHypothesis rightHypothesis
    exact forall_partsOf.2 fun i member => ((chained.within i member).passes row (by omega)).1
  | @right row members o l r tier operates loose chained _ leftHypothesis rightHypothesis =>
    have found : (Part.item (.operator ⟨row, o⟩)).operator? row = some o := by simp [Part.operator?]
    rw [tiers_drop tier] at rightHypothesis ⊢
    rw [partsOf, items_binary operates, List.map_append, List.map_cons]
    refine groupTiers_right found ?_ leftHypothesis rightHypothesis
    exact forall_partsOf.2 fun i member => ((chained.within i member).passes row (by omega)).1

end Expr

end Abacus
