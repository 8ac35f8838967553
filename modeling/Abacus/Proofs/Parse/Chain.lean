import Abacus.Proofs.Parse.Written

/-!
# Chains of operators

In any accepted grammar a line of operands with registered operators between them is grouped,
whatever other roles the symbols have.  The result is the one expression with these items in
which no operand of an operator is looser than its tier allows.
-/

namespace Abacus

namespace Grammar

theorem Operates.tier {p : Plan} {g : Grammar} (accepted : p.toGrammar = .ok g) {row : Nat}
    {o : Operator} (operates : g.Operates row o) :
    ∃ a members, g.tiers[row]? = some (.operators a members) := by
  obtain ⟨roles, found, operator⟩ := operates
  obtain ⟨a, members, tier, _⟩ := (fit_of_toGrammar accepted found).operator operator
  exact ⟨a, members, tier⟩

theorem Operates.associativity? {g : Grammar} {row : Nat} {o : Operator}
    (operates : g.Operates row o) {a : Associativity} {members : List Operator}
    (tier : g.tiers[row]? = some (.operators a members)) : g.associativity? o.symbol = some a := by
  simp [Grammar.associativity?, operates.row?, tier, Tier.associativity?]

/-- The loosest tier that needs no parentheses to the left of an operator. -/
def leftFloor (g : Grammar) (o : Operator) : Nat :=
  (g.operatorRow? o.symbol).getD 0 + if g.associativity? o.symbol = some .left then 0 else 1

/-- The loosest tier that needs no parentheses to the right of an operator. -/
def rightFloor (g : Grammar) (o : Operator) : Nat :=
  (g.operatorRow? o.symbol).getD 0 + if g.associativity? o.symbol = some .right then 0 else 1

theorem Operates.le_leftFloor {g : Grammar} {row : Nat} {o : Operator} (operates : g.Operates row o) :
    row ≤ g.leftFloor o := by
  rw [leftFloor, operates.row?]
  exact Nat.le_add_right _ _

theorem Operates.le_rightFloor {g : Grammar} {row : Nat} {o : Operator}
    (operates : g.Operates row o) : row ≤ g.rightFloor o := by
  rw [rightFloor, operates.row?]
  exact Nat.le_add_right _ _

end Grammar

namespace Expr

/-- Expressions of operands and registered operators in which no operator stands where the line
    would be grouped in another way, none of a tier looser than row `floor`. -/
inductive Joined (g : Grammar) : (floor : Nat) → Expr → Prop where
  | operand {floor : Nat} {e : Expr} : e.isOperand → Joined g floor e
  | binary {floor row : Nat} {o : Operator} {l r : Expr} : g.Operates row o → floor ≤ row →
      Joined g (g.leftFloor o) l → Joined g (g.rightFloor o) r → Joined g floor (.binary o l r)

namespace Joined

variable {g : Grammar} {floor : Nat} {e : Expr}

theorem weaken {looser : Nat} (joined : Joined g floor e) (le : looser ≤ floor) :
    Joined g looser e := by
  cases joined with
  | operand operand => exact .operand operand
  | binary operates within left right => exact .binary operates (Nat.le_trans le within) left right

theorem tighten (joined : Joined g floor e) {row : Nat} (within : row ≤ floor)
    (none : ∀ i ∈ e.items g, (Parse.Part.item i).operator? row = none) : Joined g (row + 1) e := by
  cases joined with
  | operand operand => exact .operand operand
  | @binary _ own o l r operates looser left right =>
    refine .binary operates ?_ left right
    have other : own ≠ row := fun same => by
      have := none (.operator ⟨own, o⟩) (by rw [items_binary operates]; simp)
      simp [Parse.Part.operator?, same] at this
    omega

theorem operator?_eq_none (joined : Joined g floor e) {row : Nat} (looser : row < floor) :
    ∀ i ∈ e.items g, (Parse.Part.item i).operator? row = none := by
  induction joined with
  | operand operand =>
    rw [items_operand g operand]
    exact List.forall_mem_singleton.2 rfl
  | binary operates within _ _ leftHypothesis rightHypothesis =>
    have := operates.le_leftFloor
    have := operates.le_rightFloor
    rw [items_binary operates]
    refine List.forall_mem_append.2 ⟨leftHypothesis (by omega),
      List.forall_mem_cons.2 ⟨?_, rightHypothesis (by omega)⟩⟩
    exact if_neg (by dsimp only; omega)

end Joined

end Expr

namespace Parse

open Abacus.Expr (Joined)

/-! ## Lines of operands and operators -/

/-- Operands with registered operators between them. -/
inductive Chain (g : Grammar) : List Item → Prop where
  | operand {e : Expr} : e.isOperand → Chain g [.operand e]
  | cons {e : Expr} {role : Role Operator} {items : List Item} : e.isOperand →
      g.Operates role.row role.member → Chain g items → Chain g (.operand e :: .operator role :: items)

namespace Chain

variable {g : Grammar} {items left right : List Item} {role : Role Operator}

theorem append (first : Chain g left) (operates : g.Operates role.row role.member)
    (second : Chain g right) : Chain g (left ++ .operator role :: right) := by
  induction first with
  | operand operand => exact .cons operand operates second
  | cons operand operates' _ inductionHypothesis => exact .cons operand operates' inductionHypothesis

theorem split (chain : Chain g (left ++ .operator role :: right)) :
    Chain g left ∧ g.Operates role.row role.member ∧ Chain g right := by
  generalize whole : left ++ .operator role :: right = items at chain
  induction chain generalizing left with
  | operand operand =>
    cases left with
    | nil => cases whole
    | cons i left => simp at whole
  | @cons e role' items operand operates chain inductionHypothesis =>
    rcases left with - | ⟨i, - | ⟨j, left⟩⟩
    · cases whole
    · cases whole
      exact ⟨.operand operand, operates, chain⟩
    · rw [List.cons_append, List.cons_append, List.cons.injEq, List.cons.injEq] at whole
      obtain ⟨rfl, rfl, whole⟩ := whole
      obtain ⟨first, last⟩ := inductionHypothesis whole
      exact ⟨.cons operand operates first, last⟩

theorem operates (chain : Chain g items) : ∀ role, .operator role ∈ items →
    g.Operates role.row role.member := by
  intro role member
  obtain ⟨left, right, rfl⟩ := List.append_of_mem member
  exact chain.split.2.1

theorem mem (chain : Chain g items) : ∀ i ∈ items,
    (∃ x, i = .operand x) ∨ ∃ row o, i = .operator ⟨row, o⟩ ∧ g.Operates row o := by
  induction chain with
  | operand _ => exact List.forall_mem_singleton.2 (.inl ⟨_, rfl⟩)
  | cons _ operates _ inductionHypothesis =>
    exact List.forall_mem_cons.2 ⟨.inl ⟨_, rfl⟩,
      List.forall_mem_cons.2 ⟨.inr ⟨_, _, rfl, operates⟩, inductionHypothesis⟩⟩

theorem modifier?_eq_none (chain : Chain g items) (row : Nat) (side : Side) :
    ∀ p ∈ items.map Part.item, p.modifier? row side = none := by
  refine List.forall_mem_map.2 ?_
  induction chain with
  | operand _ => exact List.forall_mem_singleton.2 rfl
  | cons _ _ _ inductionHypothesis =>
    exact List.forall_mem_cons.2 ⟨rfl, List.forall_mem_cons.2 ⟨rfl, inductionHypothesis⟩⟩

end Chain

theorem chain_items {g : Grammar} {floor : Nat} {e : Expr} (joined : Joined g floor e) :
    Chain g (e.items g) := by
  induction joined with
  | operand operand =>
    rw [Expr.items_operand g operand]
    exact .operand operand
  | binary operates _ _ _ leftHypothesis rightHypothesis =>
    rw [Expr.items_binary operates]
    exact leftHypothesis.append operates rightHypothesis

/-! ## The operators of a row -/

theorem eq_of_item_operator? {row : Nat} {i : Item} {o : Operator}
    (found : (Part.item i).operator? row = some o) : i = .operator ⟨row, o⟩ :=
  Part.item.inj (Part.eq_of_operator? found)

theorem first_operator (row : Nat) (items : List Item) :
    (∀ i ∈ items, (Part.item i).operator? row = none) ∨
    ∃ left o right, items = left ++ .operator ⟨row, o⟩ :: right ∧
      ∀ i ∈ left, (Part.item i).operator? row = none := by
  cases found : items.find? fun i => ((Part.item i).operator? row).isSome with
  | none => exact .inl (by simpa using found)
  | some i =>
    obtain ⟨here, left, right, rfl, before⟩ := List.find?_eq_some_iff_append.1 found
    obtain ⟨o, same⟩ := Option.isSome_iff_exists.1 here
    exact .inr ⟨left, o, right, by rw [eq_of_item_operator? same], by simpa using before⟩

theorem last_operator (row : Nat) (items : List Item) :
    (∀ i ∈ items, (Part.item i).operator? row = none) ∨
    ∃ left o right, items = left ++ .operator ⟨row, o⟩ :: right ∧
      ∀ i ∈ right, (Part.item i).operator? row = none := by
  rcases first_operator row items.reverse with none | ⟨left, o, right, whole, before⟩
  · exact .inl fun i member => none i (List.mem_reverse.2 member)
  · refine .inr ⟨right.reverse, o, left.reverse, ?_, fun i member =>
      before i (List.mem_reverse.1 member)⟩
    rw [← List.reverse_reverse items, whole]
    simp

/-! ## Grouping -/

section

variable {p : Grammar.Plan} {g : Grammar} (accepted : p.toGrammar = .ok g)

theorem Chain.groupTiers_modifiers {items : List Item} (chain : Chain g items) (row : Nat) (side : Side)
    (entries : List (String × Modifier.Action)) (tighter : List Tier) :
    groupTiers (.modifiers side entries :: tighter) row (items.map .item) =
      groupTiers tighter (row + 1) (items.map .item) := by
  cases side with
  | before => rw [groupTiers, groupBefore_of_none (chain.modifier?_eq_none row .before)]; rfl
  | after => rw [groupTiers, groupAfter_of_none (chain.modifier?_eq_none row .after)]; rfl

include accepted in
theorem Chain.operator?_eq_none {items : List Item} (chain : Chain g items) {row : Nat}
    (none : ∀ a members, g.tiers[row]? ≠ some (.operators a members)) :
    ∀ i ∈ items, (Part.item i).operator? row = Option.none := by
  intro i member
  cases found : (Part.item i).operator? row with
  | none => rfl
  | some o =>
    cases eq_of_item_operator? found
    obtain ⟨a, members, tier⟩ := (chain.operates _ member).tier accepted
    exact absurd tier (none a members)

theorem floors_of_tier {row : Nat} {o : Operator} (operates : g.Operates row o) {a : Associativity}
    {members : List Operator} (tier : g.tiers[row]? = some (.operators a members)) :
    (g.leftFloor o = if a = .left then row else row + 1) ∧
      g.rightFloor o = if a = .right then row else row + 1 := by
  rw [Grammar.leftFloor, Grammar.rightFloor, operates.row?, operates.associativity? tier]
  cases a <;> exact ⟨rfl, rfl⟩

include accepted in
/-- The tiers from a row on group a joined expression that is no looser into itself. -/
theorem groupTiers_items {before tiers : List Tier} (whole : g.tiers = before ++ tiers)
    {floor : Nat} {e : Expr} (joined : Joined g floor e) (within : before.length ≤ floor) :
    groupTiers tiers before.length ((e.items g).map .item) = .ok e := by
  induction tiers generalizing before floor e with
  | nil =>
    cases joined with
    | operand operand =>
      rw [Expr.items_operand g operand]
      rfl
    | binary operates looser _ _ =>
      obtain ⟨a, members, tier⟩ := operates.tier accepted
      have := (List.getElem?_eq_some_iff.1 tier).1
      rw [whole, List.append_nil] at this
      omega
  | cons tier tighter inductionHypothesis =>
    have here : g.tiers[before.length]? = some tier := by simp [whole]
    have tighten {floor : Nat} {x : Expr} (joined : Joined g floor x)
        (within : before.length + 1 ≤ floor) :
        groupTiers tighter (before.length + 1) ((x.items g).map .item) = .ok x := by
      have length : (before ++ [tier]).length = before.length + 1 := by simp
      rw [← length] at within ⊢
      exact inductionHypothesis (by rw [whole, List.append_assoc]; rfl) joined within
    cases tier with
    | modifiers side entries =>
      rw [(chain_items joined).groupTiers_modifiers]
      refine tighten (joined.tighten within ?_) (Nat.le_refl _)
      exact (chain_items joined).operator?_eq_none accepted fun a members => by simp [here]
    | operators a members =>
      induction joined with
      | operand operand =>
        rw [Expr.items_operand g operand]
        exact groupTiers_single _ _ (.inr rfl)
      | @binary floor row o l r operates looser left right leftHypothesis rightHypothesis =>
        -- The fold applies an operator of this row and leaves one of a tighter row alone.
        by_cases own : row = before.length
        · subst own
          have found : (Part.item (.operator ⟨before.length, o⟩)).operator? before.length = some o :=
            if_pos rfl
          obtain ⟨leftFloor, rightFloor⟩ := floors_of_tier operates here
          rw [Expr.items_binary operates, List.map_append, List.map_cons]
          cases a with
          | left =>
            refine groupTiers_left found ?_ (leftHypothesis (Nat.le_of_eq leftFloor.symm))
              (tighten right (Nat.le_of_eq rightFloor.symm))
            exact List.forall_mem_map.2
              (right.operator?_eq_none (by rw [rightFloor]; exact Nat.lt_succ_self _))
          | right =>
            refine groupTiers_right found ?_ (tighten left (Nat.le_of_eq leftFloor.symm))
              (rightHypothesis (Nat.le_of_eq rightFloor.symm))
            exact List.forall_mem_map.2
              (left.operator?_eq_none (by rw [leftFloor]; exact Nat.lt_succ_self _))
        · have joined := Joined.binary operates (show before.length + 1 ≤ row by omega) left right
          rw [groupTiers_tighter (List.forall_mem_map.2 (joined.operator?_eq_none (Nat.lt_succ_self _)))]
          exact tighten joined (Nat.le_refl _)

/-! ### Chains -/

/-- Whether tiers from a row on group items into an expression that reads as these items and is
    joined with no looser operator. -/
def Groups (g : Grammar) (tiers : List Tier) (row : Nat) (items : List Item) : Prop :=
  ∃ e, groupTiers tiers row (items.map .item) = .ok e ∧ Joined g row e ∧ e.items g = items

section

variable {tighter : List Tier} {row : Nat} {items left right : List Item} {o : Operator}
  {members : List Operator}

theorem Groups.looser {a : Associativity} (groups : Groups g tighter (row + 1) items)
    (none : ∀ i ∈ items, (Part.item i).operator? row = none) :
    Groups g (.operators a members :: tighter) row items := by
  obtain ⟨e, groups, joined, items⟩ := groups
  refine ⟨e, ?_, joined.weaken (Nat.le_succ _), items⟩
  rw [groupTiers_tighter (List.forall_mem_map.2 none)]
  exact groups

/-- The last operator of a tier that associates to the left is the outermost. -/
theorem Groups.last (tier : g.tiers[row]? = some (.operators .left members))
    (first : Groups g (.operators .left members :: tighter) row left) (operates : g.Operates row o)
    (second : Groups g tighter (row + 1) right)
    (none : ∀ i ∈ right, (Part.item i).operator? row = none) :
    Groups g (.operators .left members :: tighter) row (left ++ .operator ⟨row, o⟩ :: right) := by
  obtain ⟨l, groupsLeft, joinedLeft, rfl⟩ := first
  obtain ⟨r, groupsRight, joinedRight, rfl⟩ := second
  obtain ⟨leftFloor, rightFloor⟩ := floors_of_tier operates tier
  have found : (Part.item (.operator ⟨row, o⟩)).operator? row = some o := if_pos rfl
  refine ⟨.binary o l r, ?_, .binary operates (Nat.le_refl _) (leftFloor ▸ joinedLeft)
    (rightFloor ▸ joinedRight), Expr.items_binary operates l r⟩
  rw [List.map_append, List.map_cons]
  exact groupTiers_left found (List.forall_mem_map.2 none) groupsLeft groupsRight

/-- The first operator of a tier that associates to the right is the outermost. -/
theorem Groups.first (tier : g.tiers[row]? = some (.operators .right members))
    (first : Groups g tighter (row + 1) left) (operates : g.Operates row o)
    (second : Groups g (.operators .right members :: tighter) row right)
    (none : ∀ i ∈ left, (Part.item i).operator? row = none) :
    Groups g (.operators .right members :: tighter) row (left ++ .operator ⟨row, o⟩ :: right) := by
  obtain ⟨l, groupsLeft, joinedLeft, rfl⟩ := first
  obtain ⟨r, groupsRight, joinedRight, rfl⟩ := second
  obtain ⟨leftFloor, rightFloor⟩ := floors_of_tier operates tier
  have found : (Part.item (.operator ⟨row, o⟩)).operator? row = some o := if_pos rfl
  refine ⟨.binary o l r, ?_, .binary operates (Nat.le_refl _) (leftFloor ▸ joinedLeft)
    (rightFloor ▸ joinedRight), Expr.items_binary operates l r⟩
  rw [List.map_append, List.map_cons]
  exact groupTiers_right found (List.forall_mem_map.2 none) groupsLeft groupsRight

/-- A tier of operators groups a chain if the tighter tiers group what stands between them. -/
theorem Chain.groups_operators {a : Associativity} (tier : g.tiers[row]? = some (.operators a members))
    (tighten : ∀ items, Chain g items → (∀ role, .operator role ∈ items → row ≤ role.row) →
      (∀ i ∈ items, (Part.item i).operator? row = none) → Groups g tighter (row + 1) items)
    (chain : Chain g items) (within : ∀ role, .operator role ∈ items → row ≤ role.row) :
    Groups g (.operators a members :: tighter) row items := by
  -- By induction on the length of the chain, cut where its fold applies the outermost operator.
  induction length : items.length using Nat.strong_induction_on generalizing items with
  | _ size shorter =>
    cases a with
    | left =>
      rcases last_operator row items with none | ⟨left, o, right, rfl, none⟩
      · exact (tighten items chain within none).looser none
      · obtain ⟨first, operates, second⟩ := chain.split
        rw [List.length_append, List.length_cons] at length
        refine .last tier (shorter left.length (by omega) first ?_ rfl) operates
          (tighten right second ?_ none) none
        · exact fun role member => within role (List.mem_append_left _ member)
        · exact fun role member =>
            within role (List.mem_append_right _ (List.mem_cons_of_mem _ member))
    | right =>
      rcases first_operator row items with none | ⟨left, o, right, rfl, none⟩
      · exact (tighten items chain within none).looser none
      · obtain ⟨first, operates, second⟩ := chain.split
        rw [List.length_append, List.length_cons] at length
        refine .first tier (tighten left first ?_ none) operates
          (shorter right.length (by omega) second ?_ rfl) none
        · exact fun role member => within role (List.mem_append_left _ member)
        · exact fun role member =>
            within role (List.mem_append_right _ (List.mem_cons_of_mem _ member))

end

include accepted in
/-- The tiers from a row on group a chain that is no looser into a joined expression. -/
theorem Chain.groups {before tiers : List Tier} (whole : g.tiers = before ++ tiers)
    {items : List Item} (chain : Chain g items)
    (within : ∀ role, .operator role ∈ items → before.length ≤ role.row) :
    Groups g tiers before.length items := by
  -- By induction on the tiers that are left; the chain may only have operators of their rows.
  induction tiers generalizing before items with
  | nil =>
    cases chain with
    | operand operand => exact ⟨_, rfl, .operand operand, Expr.items_operand g operand⟩
    | @cons e role items operand operates chain =>
      obtain ⟨a, members, tier⟩ := operates.tier accepted
      have := (List.getElem?_eq_some_iff.1 tier).1
      rw [whole, List.append_nil] at this
      have := within role (by simp)
      omega
  | cons tier tighter inductionHypothesis =>
    have here : g.tiers[before.length]? = some tier := by simp [whole]
    have tighten (items : List Item) (chain : Chain g items)
        (within : ∀ role, .operator role ∈ items → before.length ≤ role.row)
        (none : ∀ i ∈ items, (Part.item i).operator? before.length = none) :
        Groups g tighter (before.length + 1) items := by
      have length : (before ++ [tier]).length = before.length + 1 := by simp
      rw [← length]
      refine inductionHypothesis (by rw [whole, List.append_assoc]; rfl) chain fun role member => ?_
      have := within role member
      have other : role.row ≠ before.length := fun same => by
        have := none _ member
        simp [Part.operator?, same] at this
      omega
    cases tier with
    | modifiers side entries =>
      obtain ⟨e, groups, joined, items⟩ := tighten items chain within
        (chain.operator?_eq_none accepted fun a members => by simp [here])
      exact ⟨e, by rw [chain.groupTiers_modifiers]; exact groups, joined.weaken (Nat.le_succ _), items⟩
    | operators a members => exact chain.groups_operators here tighten within

end

end Parse

end Abacus
