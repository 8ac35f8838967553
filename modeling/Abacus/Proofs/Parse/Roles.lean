import Abacus.Proofs.Parse.Arena
import Abacus.Proofs.Parse.Cutting

/-!
# The roles in a printed line

In a line that is written out, every symbol gets back the role that it had: the
items alternate as they are decided, and no symbol of the standard grammar is both
an operator and a modifier behind an operand.
-/

namespace Abacus

namespace Parse

open Fallible
open Grammar (standard)

/-- Whether operands and the symbols around them alternate; `afterOperand` tells whether an operand
    stands before the items. -/
inductive Alternating : (afterOperand : Bool) → List Item → Prop where
  | nil : Alternating true []
  | operand {e : Expr} {items : List Item} : Alternating true items →
      Alternating false (.operand e :: items)
  | before {role : Role Modifier} {items : List Item} : Alternating false items →
      Alternating false (.before role :: items)
  | after {role : Role Modifier} {items : List Item} : Alternating true items →
      Alternating true (.after role :: items)
  | operator {role : Role Operator} {items : List Item} : Alternating false items →
      Alternating true (.operator role :: items)

theorem alternating_items (g : Grammar) (e : Expr) {rest : List Item}
    (alternating : Alternating true rest) : Alternating false (e.items g ++ rest) := by
  match e with
  | .binary o l r =>
    rw [Expr.items, List.append_assoc]
    exact alternating_items g l (.operator (alternating_items g r alternating))
  | .unary m e =>
    rw [Expr.items]
    cases m.side with
    | before => exact .before (alternating_items g e alternating)
    | after =>
      rw [List.append_assoc]
      exact alternating_items g e (.after alternating)
  | .literal _ | .cell _ | .call _ _ | .parens _ | .branches _ _ => exact .operand alternating

def Item.undecided (g : Grammar) : Item → Item
  | .operator role => .symbol role.member.symbol ((g.roles? role.member.symbol).getD {})
  | .before role | .after role =>
    .symbol role.member.symbol ((g.roles? role.member.symbol).getD {})
  | i => i

theorem after_of_operator : ∀ symbol ∈ standard.roles.keys, ∀ roles,
    standard.roles? symbol = some roles → roles.operator.isSome → roles.after = none := by
  have alone : ∀ symbol ∈ standard.roles.keys, ∀ roles ∈ standard.roles? symbol,
      roles.operator.isSome → roles.after.isNone := by decide +kernel
  intro symbol registered roles found operator
  exact Option.isNone_iff_eq_none.1 (alone symbol registered roles found operator)

theorem undecided_operator {row : Nat} {role : Role Operator} (within : (Item.operator role).Within row) :
    ∃ roles, (Item.operator role).undecided standard = .symbol role.member.symbol roles ∧
      roles.operator = some role ∧ roles.after = none := by
  obtain ⟨_, roles, found, operator⟩ := within
  refine ⟨roles, by rw [Item.undecided, found]; rfl, operator, ?_⟩
  exact after_of_operator _ (Table.mem_keys found) roles found (by rw [operator]; rfl)

theorem undecided_before {row : Nat} {role : Role Modifier} (within : (Item.before role).Within row) :
    ∃ roles, (Item.before role).undecided standard = .symbol role.member.symbol roles ∧
      roles.before = some role := by
  obtain ⟨_, side, roles, found, modifier⟩ := within
  rw [side] at modifier
  exact ⟨roles, by rw [Item.undecided, found]; rfl, modifier⟩

theorem undecided_after {row : Nat} {role : Role Modifier} (within : (Item.after role).Within row) :
    ∃ roles, (Item.after role).undecided standard = .symbol role.member.symbol roles ∧
      roles.after = some role ∧ roles.operator = none := by
  obtain ⟨_, side, roles, found, modifier⟩ := within
  rw [side] at modifier
  have after : roles.after = some role := modifier
  refine ⟨roles, by rw [Item.undecided, found]; rfl, after, ?_⟩
  cases operator : roles.operator with
  | none => rfl
  | some other =>
    have none := after_of_operator _ (Table.mem_keys found) roles found (by rw [operator]; rfl)
    rw [after] at none
    cases none

theorem opensOperand_undecided {items : List Item} (alternating : Alternating true items)
    (within : ∀ i ∈ items, i.Within 0) :
    (items.map (Item.undecided standard)).head?.any Item.opensOperand = false := by
  cases alternating with
  | nil => rfl
  | after _ =>
    obtain ⟨roles, undecided, after, _⟩ := undecided_after (within _ List.mem_cons_self)
    simp [undecided, Item.opensOperand, after]
  | operator _ =>
    obtain ⟨roles, undecided, operator, _⟩ := undecided_operator (within _ List.mem_cons_self)
    simp [undecided, Item.opensOperand, operator]

theorem decideRoles_cons {afterOperand : Bool} {item first : Item} {rest : List Item}
    {more : List (Item × Bool)} (decides : decideItem afterOperand rest.head? item = .ok first)
    (none : (first.closesOperand && rest.head?.any Item.opensOperand) = false)
    (decidesRest : decideRoles first.closesOperand rest = .ok more) :
    decideRoles afterOperand (item :: rest) = .ok ((first, false) :: more) := by
  rw [decideRoles]
  refine bind_eq_ok.2 ⟨first, decides, bind_eq_ok.2 ⟨more, ?_, ?_⟩⟩
  · rw [none, Bool.not_false, Bool.and_true]
    exact decidesRest
  · rw [none]
    rfl

theorem decideRoles_undecided {afterOperand : Bool} {items : List Item}
    (alternating : Alternating afterOperand items) (within : ∀ i ∈ items, i.Within 0) :
    decideRoles afterOperand (items.map (Item.undecided standard)) =
      .ok (items.map fun i => (i, false)) := by
  induction alternating with
  | nil => rfl
  | @operand e items alternating inductionHypothesis =>
    rw [List.forall_mem_cons] at within
    refine decideRoles_cons rfl ?_ (inductionHypothesis within.2)
    rw [opensOperand_undecided alternating within.2, Bool.and_false]
  | @before role items alternating inductionHypothesis =>
    rw [List.forall_mem_cons] at within
    obtain ⟨roles, undecided, before⟩ := undecided_before within.1
    simp only [List.map_cons, undecided]
    refine decideRoles_cons ?_ rfl (inductionHypothesis within.2)
    simp [decideItem, decideRole, before]
  | @after role items alternating inductionHypothesis =>
    rw [List.forall_mem_cons] at within
    obtain ⟨roles, undecided, after, operator⟩ := undecided_after within.1
    simp only [List.map_cons, undecided]
    refine decideRoles_cons ?_ ?_ (inductionHypothesis within.2)
    · simp [decideItem, decideRole, after, operator, Option.filter]
    · rw [opensOperand_undecided alternating within.2, Bool.and_false]
  | @operator role items alternating inductionHypothesis =>
    rw [List.forall_mem_cons] at within
    obtain ⟨roles, undecided, operator, after⟩ := undecided_operator within.1
    simp only [List.map_cons, undecided]
    refine decideRoles_cons ?_ rfl (inductionHypothesis within.2)
    simp [decideItem, decideRole, after, operator]

theorem spliced_of_none (default : Item) (items : List Item) :
    Line.spliced default (items.map fun i => (i, false)) = items := by
  induction items with
  | nil => rfl
  | cons i items inductionHypothesis =>
    exact congrArg (i :: ·) inductionHypothesis

theorem toExpr_of_decideRoles (g : Grammar) {read items : List Item}
    (decides : decideRoles false read = .ok (items.map fun i => (i, false)))
    (starts : ∀ role rest, items ≠ .operator role :: rest) (leading : Option Expr) :
    ∃ l, (Line.ofList read).decide g = .ok l ∧
      (l.withLeading leading).toExpr g = groupTiers g.tiers 0 (items.map .item) := by
  have same := (Line.represents_ofList read).toList
  rw [← same] at decides
  obtain ⟨l, ends⟩ : ∃ l, (Line.ofList read).decide g = .ok l :=
    ⟨_, bind_eq_ok.2 ⟨_, decides, rfl⟩⟩
  refine ⟨l, ends, ?_⟩
  obtain ⟨decided, decides', represents⟩ := Line.represents_decide ends
  rw [same] at decides
  cases decides.symm.trans decides'
  rw [spliced_of_none] at represents
  rcases represents.withLeading leading with same | ⟨_, role, rest, _, operator, _⟩
  · rw [same, Line.toExpr, represents.toList]
  · exact absurd operator (starts role rest)

/-- The undecided items of an expression of the shape of the loosest tier are decided and grouped
    into it, whatever the line might continue from. -/
theorem decide_toExpr {e : Expr} (chained : Expr.Chained 0 e) (leading : Option Expr) :
    ∃ l, (Line.ofList ((e.items standard).map (Item.undecided standard))).decide standard = .ok l ∧
      (l.withLeading leading).toExpr standard = .ok e := by
  have alternating : Alternating false (e.items standard) := by
    have whole := alternating_items standard e .nil
    rwa [List.append_nil] at whole
  have decides := decideRoles_undecided alternating chained.within
  obtain ⟨l, ends, groups⟩ := toExpr_of_decideRoles standard decides (fun role rest starts => by
    rw [starts] at alternating
    cases alternating) leading
  exact ⟨l, ends, groups.trans chained.groups⟩

end Parse

end Abacus
