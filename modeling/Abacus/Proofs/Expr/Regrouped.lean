import Abacus.Proofs.Expr.Composed
import Mathlib.Data.List.Forall2

/-!
# What the text of an expression is grouped into

An expression written without any further parentheses is grouped again by the tiers, level by
level.  Whenever that gives an expression that only differs in its parentheses and names, the
expression had all the parentheses it needs.
-/

namespace Abacus.Expr

open Parse

/-! ## Grouping again -/

/-- The expression that the tiers group some items into. -/
def grouped (g : Grammar) (items : List Item) : Expr :=
  (groupTiers g.tiers 0 (items.map .item)).toOption.getD .void

mutual

def regroupedItems (g : Grammar) : Expr → List Item
  | .binary o l r =>
    regroupedItems g l ++ .operator ⟨(g.operatorRow? o.symbol).getD 0, o⟩ :: regroupedItems g r
  | .call f es => [.operand (.call f (regroupedAll g es))]
  | .parens inner => [.operand (.parens (grouped g (regroupedItems g inner)))]
  | e => [.operand e]

def regroupedAll (g : Grammar) : List Expr → List Expr
  | [] => []
  | e :: rest => grouped g (regroupedItems g e) :: regroupedAll g rest

end

/-- What the tiers group an expression into when it is written as it is. -/
def regrouped (g : Grammar) (e : Expr) : Expr := grouped g (regroupedItems g e)

theorem grouped_eq {g : Grammar} {items : List Item} {e : Expr}
    (groups : groupTiers g.tiers 0 (items.map .item) = .ok e) : grouped g items = e :=
  congrArg (fun result : Except ParseError Expr => result.toOption.getD .void) groups

theorem grouped_operand (g : Grammar) (e : Expr) : grouped g [.operand e] = e :=
  grouped_eq (groupTiers_single g.tiers 0 (.inr rfl))

theorem regroupedAll_eq_map (g : Grammar) (es : List Expr) :
    regroupedAll g es = es.map (regrouped g) := by
  induction es with
  | nil => rfl
  | cons e rest inductionHypothesis => rw [regroupedAll, inductionHypothesis, List.map_cons, regrouped]

section

variable {p : Grammar.Plan} {g : Grammar} {leaf : Expr → Prop} {callable : Function → Nat → Prop}
  {floor : Nat} {e : Expr}

theorem Composed.chain (composed : Composed g leaf callable e) : Chain g (regroupedItems g e) := by
  induction composed with
  | literal _ | cell _ | call _ _ _ | parens _ _ => exact .operand rfl
  | binary operates _ _ leftHypothesis rightHypothesis =>
    rw [regroupedItems, operates.row?]
    exact leftHypothesis.append operates rightHypothesis

theorem Composed.regroups (accepted : p.toGrammar = .ok g) (composed : Composed g leaf callable e) :
    groupTiers g.tiers 0 ((regroupedItems g e).map .item) = .ok (regrouped g e) ∧
      Joined g 0 (regrouped g e) ∧ (regrouped g e).items g = regroupedItems g e := by
  have whole : g.tiers = [] ++ g.tiers := rfl
  obtain ⟨e', groups, joined, items⟩ := composed.chain.groups accepted whole fun _ _ => Nat.zero_le _
  have same : regrouped g e = e' := grouped_eq groups
  rw [same]
  exact ⟨groups, joined, items⟩

/-! ## Expressions that have the parentheses they need -/

theorem grouped_items (accepted : p.toGrammar = .ok g) (joined : Joined g floor e) :
    grouped g (e.items g) = e := by
  have whole : g.tiers = [] ++ g.tiers := rfl
  exact grouped_eq (groupTiers_items accepted whole joined (Nat.zero_le _))

theorem Composed.regroupedItems_of_fits (accepted : p.toGrammar = .ok g)
    (composed : Composed g leaf callable e) (fits : Fits g floor e) :
    regroupedItems g e = e.items g := by
  induction composed generalizing floor with
  | literal _ | cell _ => rfl
  | binary operates _ _ leftHypothesis rightHypothesis =>
    obtain ⟨left, right⟩ := fits.sides
    rw [regroupedItems, operates.row?, leftHypothesis left, rightHypothesis right,
      items_binary operates]
    rfl
  | @call f es _ _ inductionHypothesis =>
    rcases fits with _ | _ | _ | each
    have same : es.map (regrouped g) = es := by
      refine (List.map_congr_left fun e member => ?_).trans (List.map_id es)
      rw [regrouped, inductionHypothesis e member (each e member)]
      exact grouped_items accepted (each e member).joined
    rw [regroupedItems, regroupedAll_eq_map, same]
    rfl
  | parens _ inductionHypothesis =>
    rcases fits with _ | _ | _ | _ | inner
    rw [regroupedItems, inductionHypothesis inner, grouped_items accepted inner.joined]
    rfl

/-- An expression that has the parentheses it needs is grouped into itself. -/
theorem Composed.regrouped_of_fits (accepted : p.toGrammar = .ok g)
    (composed : Composed g leaf callable e) (fits : Fits g 0 e) : regrouped g e = e := by
  rw [regrouped, composed.regroupedItems_of_fits accepted fits]
  exact grouped_items accepted fits.joined

end

/-! ## Sizes -/

/-- The number of operations and operands of an expression, parentheses apart. -/
def size : Expr → Nat
  | .literal _ | .cell _ | .call _ _ => 1
  | .binary _ l r => l.size + 1 + r.size
  | .unary _ e => e.size + 1
  | .parens inner => inner.size
  | .branches a b => a.size + 1 + b.size

theorem size_pos : ∀ e : Expr, 0 < e.size
  | .literal _ | .cell _ | .call _ _ => Nat.one_pos
  | .binary _ l r => by rw [size]; omega
  | .unary _ e => Nat.succ_pos _
  | .parens inner => size_pos inner
  | .branches a b => by rw [size]; omega

theorem size_outline : ∀ e : Expr, e.outline.size = e.size
  | .literal _ | .cell _ | .call _ _ => rfl
  | .binary o l r => by
    have sides : (Expr.binary o l r).outline = .binary o l.outline r.outline := rfl
    rw [sides, size, size, size_outline l, size_outline r]
  | .unary m e => by
    have operand : (Expr.unary m e).outline = .unary m e.outline := rfl
    rw [operand, size, size, size_outline e]
  | .parens inner => size_outline inner
  | .branches a b => by
    have sides : (Expr.branches a b).outline = .branches a.outline b.outline := rfl
    rw [sides, size, size, size_outline a, size_outline b]

end Abacus.Expr

namespace Abacus.Parse.Item

def size : Item → Nat
  | .operand e => e.size
  | _ => 1

theorem size_pos (i : Item) : 0 < i.size := by
  cases i <;> first | exact Expr.size_pos _ | exact Nat.one_pos

end Abacus.Parse.Item

namespace Abacus.Expr

open Parse

theorem sum_size_items (g : Grammar) : ∀ e : Expr, ((e.items g).map Item.size).sum = e.size
  | .binary _ l r => by
    simp [items, size, Item.size, sum_size_items g l, sum_size_items g r, Nat.add_assoc]
  | .unary m e => by
    rw [items]
    cases m.side <;> simp [size, Item.size, sum_size_items g e, Nat.add_comm]
  | .literal _ | .cell _ | .call _ _ | .parens _ | .branches _ _ => Nat.add_zero _

theorem length_eq_of_sum_eq {a b c d : List Nat} (positive : ∀ n ∈ a ++ b, 0 < n)
    (whole : a ++ b = c ++ d) (sum : a.sum = c.sum) : a.length = c.length := by
  have empty {surplus : List Nat} (positive : ∀ n ∈ surplus, 0 < n) (none : surplus.sum = 0) :
      surplus = [] := by
    cases surplus with
    | nil => rfl
    | cons n rest =>
      have := positive n List.mem_cons_self
      rw [List.sum_cons] at none
      omega
  rcases List.append_eq_append_iff.1 whole with ⟨surplus, rfl, rfl⟩ | ⟨surplus, rfl, rfl⟩
  · rw [List.sum_append] at sum
    have none : surplus = [] := empty (fun n member => positive n (by simp [member])) (by omega)
    rw [none, List.append_nil]
  · rw [List.sum_append] at sum
    have none : surplus = [] := empty (fun n member => positive n (by simp [member])) (by omega)
    rw [none, List.append_nil]

/-! ## Expressions of the same outline -/

/-- Whether an item is another one but for its operand, which is the same and has the parentheses it
    needs if it is of the same outline. -/
inductive Matches (g : Grammar) : Item → Item → Prop where
  | operator (role : Role Operator) : Matches g (.operator role) (.operator role)
  | operand {x y : Expr} : x.size = y.size → (x.outline = y.outline → x = y ∧ Fits g 0 y) →
      Matches g (.operand x) (.operand y)

section

variable {p : Grammar.Plan} {g : Grammar} {leaf : Expr → Prop} {callable : Function → Nat → Prop}
  {floor : Nat} {a b e : Expr}

theorem sizes_of_matches {items items' : List Item} (each : List.Forall₂ (Matches g) items items') :
    items.map Item.size = items'.map Item.size := by
  induction each with
  | nil => rfl
  | cons first _ inductionHypothesis =>
    rw [List.map_cons, List.map_cons, inductionHypothesis]
    cases first with
    | operator role => rfl
    | operand size _ => rw [Item.size, Item.size, size]

theorem eq_of_matches (joined : Joined g floor a) (composed : Composed g leaf callable b)
    (each : List.Forall₂ (Matches g) (a.items g) (b.items g)) (same : a.outline = b.outline) :
    a = b ∧ ∀ x, .operand x ∈ b.items g → Fits g 0 x := by
  induction joined generalizing b with
  | @operand _ a operand =>
    rw [items_operand g operand] at each
    generalize whole : b.items g = items at each
    rcases each with _ | ⟨first, _ | _⟩
    cases first with
    | operand _ equal =>
      cases eq_of_items_operand whole
      obtain ⟨rfl, fits⟩ := equal same
      exact ⟨rfl, fun x member => by cases List.mem_singleton.1 member; exact fits⟩
  | @binary floor row o l r operates within _ _ leftHypothesis rightHypothesis =>
    rw [items_binary operates] at each
    have length := each.length_eq
    have filled := List.length_pos_iff.2 (items_ne_nil g l)
    cases composed with
    | literal _ | cell _ | call _ _ | parens _ =>
      simp [items] at length
      omega
    | @binary row' o' l' r' operates' composedLeft composedRight =>
      obtain ⟨rfl, sameLeft, sameRight⟩ : o = o' ∧ l.outline = l'.outline ∧ r.outline = r'.outline := by
        injection same with symbol left right
        exact ⟨symbol, left, right⟩
      rw [items_binary operates'] at each ⊢
      -- The left operands end at the same item since the same outline gives them the same size.
      have fronts : (l.items g).length = (l'.items g).length := by
        have sizes := sizes_of_matches each
        rw [List.map_append, List.map_append] at sizes
        have positive : ∀ n ∈ (l.items g).map Item.size ++
            (Item.operator ⟨row, o⟩ :: r.items g).map Item.size, 0 < n := by
          rw [← List.map_append]
          exact List.forall_mem_map.2 fun i _ => i.size_pos
        have sum : ((l.items g).map Item.size).sum = ((l'.items g).map Item.size).sum := by
          rw [sum_size_items, sum_size_items, ← size_outline l, ← size_outline l', sameLeft]
        simpa using length_eq_of_sum_eq positive sizes sum
      have left := List.forall₂_take_append _ _ _ each
      have right := List.forall₂_drop_append _ _ _ each
      rw [← fronts] at left right
      rw [List.take_left] at left
      rw [List.drop_left] at right
      rcases right with _ | ⟨_, right⟩
      obtain ⟨rfl, fitsLeft⟩ := leftHypothesis composedLeft left sameLeft
      obtain ⟨rfl, fitsRight⟩ := rightHypothesis composedRight right sameRight
      refine ⟨rfl, fun x member => ?_⟩
      rw [List.mem_append, List.mem_cons] at member
      rcases member with member | impossible | member
      · exact fitsLeft x member
      · cases impossible
      · exact fitsRight x member

/-- If the items of an expression match after the texts inside of them are grouped again, the
    expression is of the same size after that, and the same if it is of the same outline. -/
theorem Composed.equal_of_matches (accepted : p.toGrammar = .ok g) (composed : Composed g leaf callable e)
    (each : List.Forall₂ (Matches g) (regroupedItems g e) (e.items g)) :
    (regrouped g e).size = e.size ∧
      ((regrouped g e).outline = e.outline → regrouped g e = e ∧ Fits g 0 e) := by
  obtain ⟨_, joined, items⟩ := composed.regroups accepted
  rw [← items] at each
  constructor
  · rw [← sum_size_items g, ← sum_size_items g e, sizes_of_matches each]
  · intro same
    obtain ⟨equal, operands⟩ := eq_of_matches joined composed each same
    exact ⟨equal, (equal ▸ joined).fits operands⟩

theorem Composed.matches_items (accepted : p.toGrammar = .ok g) (composed : Composed g leaf callable e) :
    List.Forall₂ (Matches g) (regroupedItems g e) (e.items g) := by
  induction composed with
  | literal _ => exact .cons (.operand rfl fun _ => ⟨rfl, .literal⟩) .nil
  | cell _ => exact .cons (.operand rfl fun _ => ⟨rfl, .cell⟩) .nil
  | binary operates _ _ leftHypothesis rightHypothesis =>
    rw [regroupedItems, operates.row?, items_binary operates]
    exact List.rel_append leftHypothesis (.cons (.operator _) rightHypothesis)
  | @call f es _ composed inductionHypothesis =>
    refine .cons (.operand rfl fun same => ?_) .nil
    rw [regroupedAll_eq_map] at same ⊢
    rw [outline_call, outline_call, Expr.call.injEq, List.map_map, List.map_inj_left] at same
    have each (e : Expr) (member : e ∈ es) : regrouped g e = e ∧ Fits g 0 e :=
      ((composed e member).equal_of_matches accepted (inductionHypothesis e member)).2
        (same.2 e member)
    have unchanged : es.map (regrouped g) = es :=
      (List.map_congr_left fun e member => (each e member).1).trans (List.map_id es)
    exact ⟨congrArg (Expr.call f) unchanged, .call fun e member => (each e member).2⟩
  | parens composed inductionHypothesis =>
    obtain ⟨size, equal⟩ := composed.equal_of_matches accepted inductionHypothesis
    refine .cons (.operand size fun same => ?_) .nil
    obtain ⟨equal, fits⟩ := equal same
    exact ⟨congrArg Expr.parens equal, .parens fits⟩

/-- An expression of which only parentheses change when it is grouped again has the parentheses it
    needs. -/
theorem Composed.fits_of_outline (accepted : p.toGrammar = .ok g) (composed : Composed g leaf callable e)
    (same : (regrouped g e).outline = e.outline) : Fits g 0 e :=
  ((composed.equal_of_matches accepted (composed.matches_items accepted)).2 same).2

end

end Abacus.Expr
