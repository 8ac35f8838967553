import Abacus.Proofs.Parse.Fallible
import Mathlib.Data.List.TakeWhile

/-!
# Grouping by composition

How the parts of an operation and of a modification group, in terms of how the
parts of their operands do.
-/

namespace Abacus.Parse

open Fallible

variable {tighter : List Tier} {row : Nat} {parts left right : List Part} {p : Part}

/-! ## Operators -/

theorem cutAt_of_none (none : ∀ q ∈ parts, q.operator? row = none) :
    cutAt row parts = (parts, []) := by
  induction parts with
  | nil => rfl
  | cons q parts inductionHypothesis =>
    rw [List.forall_mem_cons] at none
    simp only [cutAt, inductionHypothesis none.2, none.1]

theorem cutAt_append_last {o : Operator} (found : p.operator? row = some o)
    (none : ∀ q ∈ right, q.operator? row = none) :
    cutAt row (left ++ p :: right) = ((cutAt row left).1, (cutAt row left).2 ++ [(o, right)]) := by
  induction left with
  | nil => simp only [List.nil_append, cutAt, cutAt_of_none none, found]
  | cons q left inductionHypothesis =>
    simp only [List.cons_append, cutAt, inductionHypothesis]
    cases q.operator? row <;> rfl

theorem cutAt_append_first {o : Operator} (found : p.operator? row = some o)
    (none : ∀ q ∈ left, q.operator? row = none) :
    cutAt row (left ++ p :: right) = (left, (o, (cutAt row right).1) :: (cutAt row right).2) := by
  induction left with
  | nil => simp only [List.nil_append, cutAt, found]
  | cons q left inductionHypothesis =>
    rw [List.forall_mem_cons] at none
    simp only [List.cons_append, cutAt, inductionHypothesis none.2, none.1]

def groupSegment (tighter : List Tier) (row : Nat) (entry : Operator × List Part) :
    Except ParseError (Operator × Expr) := do
  return (entry.1, ← groupTiers tighter row entry.2)

theorem groupTiers_operators {a : Associativity} {members : List Operator} {e : Expr} :
    groupTiers (.operators a members :: tighter) row parts = .ok e ↔
      ∃ first rest, groupTiers tighter (row + 1) (cutAt row parts).1 = .ok first ∧
        (cutAt row parts).2.mapM (groupSegment tighter (row + 1)) = .ok rest ∧
          fold a first rest = e := by
  rw [groupTiers, bind_eq_ok]
  constructor
  · rintro ⟨first, groups, ends⟩
    obtain ⟨rest, more, ends⟩ := bind_eq_ok.1 ends
    cases ends
    exact ⟨first, rest, groups, more, rfl⟩
  · rintro ⟨first, rest, groups, more, rfl⟩
    exact ⟨first, groups, bind_eq_ok.2 ⟨rest, more, rfl⟩⟩

theorem groupTiers_tighter {a : Associativity} {members : List Operator}
    (none : ∀ q ∈ parts, q.operator? row = none) :
    groupTiers (.operators a members :: tighter) row parts =
      groupTiers tighter (row + 1) parts := by
  rw [groupTiers, cutAt_of_none none]
  dsimp only
  cases groupTiers tighter (row + 1) parts with
  | error cause => rfl
  | ok e => cases a <;> rfl

theorem groupTiers_left {members : List Operator} {o : Operator} {l r : Expr}
    (found : p.operator? row = some o) (none : ∀ q ∈ right, q.operator? row = none)
    (groupsLeft : groupTiers (.operators .left members :: tighter) row left = .ok l)
    (groupsRight : groupTiers tighter (row + 1) right = .ok r) :
    groupTiers (.operators .left members :: tighter) row (left ++ p :: right) =
      .ok (.binary o l r) := by
  obtain ⟨first, rest, groups, more, rfl⟩ := groupTiers_operators.1 groupsLeft
  refine groupTiers_operators.2 ⟨first, rest ++ [(o, r)], ?_, ?_, ?_⟩
  · rw [cutAt_append_last found none]
    exact groups
  · have last : [(o, right)].mapM (groupSegment tighter (row + 1)) = .ok [(o, r)] := by
      rw [List.mapM_cons, groupSegment, groupsRight]
      rfl
    rw [cutAt_append_last found none, List.mapM_append]
    exact bind_eq_ok.2 ⟨rest, more, bind_eq_ok.2 ⟨_, last, rfl⟩⟩
  · simp [fold, foldLeft]

theorem groupTiers_right {members : List Operator} {o : Operator} {l r : Expr}
    (found : p.operator? row = some o) (none : ∀ q ∈ left, q.operator? row = none)
    (groupsLeft : groupTiers tighter (row + 1) left = .ok l)
    (groupsRight : groupTiers (.operators .right members :: tighter) row right = .ok r) :
    groupTiers (.operators .right members :: tighter) row (left ++ p :: right) =
      .ok (.binary o l r) := by
  obtain ⟨first, rest, groups, more, rfl⟩ := groupTiers_operators.1 groupsRight
  refine groupTiers_operators.2 ⟨l, (o, first) :: rest, ?_, ?_, rfl⟩
  · rw [cutAt_append_first found none]
    exact groupsLeft
  · have next : groupSegment tighter (row + 1) (o, (cutAt row right).1) = .ok (o, first) := by
      rw [groupSegment, groups]
      rfl
    rw [cutAt_append_first found none, List.mapM_cons]
    exact bind_eq_ok.2 ⟨_, next, bind_eq_ok.2 ⟨rest, more, rfl⟩⟩

/-! ## Modifiers -/

section

variable {inner : List Part → Except ParseError Expr} {m : Modifier} {x : Expr}

theorem modify_of_ok (filled : parts ≠ []) (groups : inner parts = .ok x) :
    modify inner m parts = .ok (.grouped (.unary m x)) := by
  rw [modify, if_neg (by simpa using filled), groups]
  rfl

theorem modify_eq_ok (ends : modify inner m parts = .ok p) :
    ∃ e, inner parts = .ok e ∧ p = .grouped (.unary m e) := by
  unfold modify at ends
  split at ends
  · cases ends
  · cases result : inner parts with
    | ok e =>
      rw [result] at ends
      cases ends
      exact ⟨e, rfl, rfl⟩
    | error other =>
      rw [result] at ends
      cases ends

theorem takes_all {side : Side} (free : ∀ q ∈ parts, q.ends row side = false) :
    (parts.takeWhile fun q => !q.ends row side) = parts ∧
      (parts.dropWhile fun q => !q.ends row side) = [] := by
  have all : ∀ q ∈ parts, (!q.ends row side) = true := fun q member => by simp [free q member]
  exact ⟨List.takeWhile_eq_self_iff.2 all, List.dropWhile_eq_nil_iff.2 all⟩

theorem groupBefore_append (none : ∀ q ∈ left, q.modifier? row .before = none) :
    groupBefore inner row (left ++ right) = (groupBefore inner row right).map (left ++ ·) := by
  induction left with
  | nil => cases groups : groupBefore inner row right <;> simp [groups, Except.map]
  | cons q left inductionHypothesis =>
    rw [List.forall_mem_cons] at none
    rw [List.cons_append, groupBefore, inductionHypothesis none.2, none.1]
    cases groupBefore inner row right <;> rfl

theorem groupBefore_of_none (none : ∀ q ∈ parts, q.modifier? row .before = none) :
    groupBefore inner row parts = .ok parts := by
  have whole : groupBefore inner row (parts ++ []) = _ := groupBefore_append none
  rw [List.append_nil] at whole
  rw [whole]
  simp [groupBefore, Except.map]

/-- A modifier takes all that is left of the parts behind it unless something ends its operand. -/
theorem groupBefore_cons (found : p.modifier? row .before = some m)
    (groups : groupBefore inner row parts = .ok right) (filled : right ≠ [])
    (free : ∀ q ∈ right, q.ends row .before = false) (groupsInner : inner right = .ok x) :
    groupBefore inner row (p :: parts) = .ok [.grouped (.unary m x)] := by
  obtain ⟨taken, untaken⟩ := takes_all free
  rw [groupBefore]
  refine bind_eq_ok.2 ⟨right, groups, ?_⟩
  rw [found]
  refine bind_eq_ok.2 ⟨.grouped (.unary m x), ?_, ?_⟩
  · rw [taken]
    exact modify_of_ok filled groupsInner
  · rw [untaken]
    rfl

theorem groupAfter_append (passed : List Part) :
    groupAfter inner row passed (left ++ right) =
      groupAfter inner row passed left >>= fun result => groupAfter inner row result.reverse right := by
  induction left generalizing passed with
  | nil => simp [groupAfter, bind, Except.bind]
  | cons q left inductionHypothesis =>
    rw [List.cons_append, groupAfter, groupAfter]
    cases q.modifier? row .after with
    | none => exact inductionHypothesis _
    | some m =>
      simp only [bind_assoc]
      exact bind_congr fun modified => inductionHypothesis _

theorem groupAfter_of_none (none : ∀ q ∈ parts, q.modifier? row .after = none)
    (passed : List Part) : groupAfter inner row passed parts = .ok (passed.reverse ++ parts) := by
  induction parts generalizing passed with
  | nil => simp [groupAfter]
  | cons q parts inductionHypothesis =>
    rw [List.forall_mem_cons] at none
    rw [groupAfter, none.1]
    change groupAfter inner row (q :: passed) parts = _
    rw [inductionHypothesis none.2]
    simp

theorem groupAfter_concat (found : p.modifier? row .after = some m)
    (groups : groupAfter inner row [] parts = .ok left) (filled : left ≠ [])
    (free : ∀ q ∈ left, q.ends row .after = false) (groupsInner : inner left = .ok x) :
    groupAfter inner row [] (parts ++ [p]) = .ok [.grouped (.unary m x)] := by
  have freeReversed : ∀ q ∈ left.reverse, q.ends row .after = false :=
    fun q member => free q (List.mem_reverse.1 member)
  obtain ⟨taken, untaken⟩ := takes_all freeReversed
  rw [groupAfter_append, groups]
  change groupAfter inner row left.reverse [p] = _
  rw [groupAfter, found]
  change (do
    let modified ← modify inner m (left.reverse.takeWhile _).reverse
    groupAfter inner row (modified :: left.reverse.dropWhile _) []) = _
  rw [taken, untaken, List.reverse_reverse, modify_of_ok filled groupsInner]
  rfl

end

/-! ## Operands -/

theorem groupTiers_single (tiers : List Tier) (row : Nat) {p : Part} {e : Expr}
    (single : p = .grouped e ∨ p = .item (.operand e)) : groupTiers tiers row [p] = .ok e := by
  induction tiers generalizing row with
  | nil => rcases single with rfl | rfl <;> rfl
  | cons tier tiers inductionHypothesis =>
    cases tier with
    | operators a members =>
      rw [groupTiers_tighter, inductionHypothesis]
      rcases single with rfl | rfl <;> simp [Part.operator?]
    | modifiers side entries =>
      cases side with
      | before =>
        rw [groupTiers, groupBefore_of_none]
        · exact inductionHypothesis _
        · rcases single with rfl | rfl <;> simp [Part.modifier?]
      | after =>
        rw [groupTiers, groupAfter_of_none]
        · exact inductionHypothesis _
        · rcases single with rfl | rfl <;> simp [Part.modifier?]

/-! ## Tiers of modifiers -/

/-- What a tier of modifiers makes of some parts before the tighter tiers group them. -/
def applyModifiers (inner : List Part → Except ParseError Expr) (row : Nat) :
    Side → List Part → Except ParseError (List Part)
  | .before => groupBefore inner row
  | .after => groupAfter inner row []

/-- A tier of modifiers leaves parts, all of which a modifier beside them takes, and the tighter
    tiers group what is left. -/
def Settles (tighter : List Tier) (row : Nat) (side : Side) (parts : List Part) (e : Expr) : Prop :=
  ∃ settled, applyModifiers (groupTiers tighter (row + 1)) row side parts = .ok settled ∧
    settled ≠ [] ∧ (∀ q ∈ settled, q.ends row side = false) ∧
      groupTiers tighter (row + 1) settled = .ok e

namespace Settles

variable {side : Side} {e : Expr} {m : Modifier}

theorem groups (settles : Settles tighter row side parts e) (entries : List (String × Modifier.Action)) :
    groupTiers (.modifiers side entries :: tighter) row parts = .ok e := by
  obtain ⟨settled, applied, _, _, groups⟩ := settles
  cases side with
  | before => exact bind_eq_ok.2 ⟨settled, applied, groups⟩
  | after => exact bind_eq_ok.2 ⟨settled, applied, groups⟩

theorem of_none (none : ∀ q ∈ parts, q.modifier? row side = none) (filled : parts ≠ [])
    (free : ∀ q ∈ parts, q.ends row side = false)
    (groups : groupTiers tighter (row + 1) parts = .ok e) : Settles tighter row side parts e := by
  refine ⟨parts, ?_, filled, free, groups⟩
  cases side with
  | before => exact groupBefore_of_none none
  | after => exact groupAfter_of_none none []

theorem grouped (tighter : List Tier) (row : Nat) (side : Side) (e : Expr) :
    Settles tighter row side [.grouped e] e := by
  refine of_none ?_ (List.cons_ne_nil _ _) ?_ (groupTiers_single tighter (row + 1) (.inl rfl))
  · simp [Part.modifier?]
  · simp [Part.ends]

theorem before (found : p.modifier? row .before = some m)
    (settles : Settles tighter row .before parts e) :
    Settles tighter row .before (p :: parts) (.unary m e) := by
  obtain ⟨settled, applied, filled, free, groups⟩ := settles
  refine ⟨[.grouped (.unary m e)], groupBefore_cons found applied filled free groups,
    List.cons_ne_nil _ _, ?_, groupTiers_single tighter (row + 1) (.inl rfl)⟩
  simp [Part.ends]

theorem after (found : p.modifier? row .after = some m)
    (settles : Settles tighter row .after parts e) :
    Settles tighter row .after (parts ++ [p]) (.unary m e) := by
  obtain ⟨settled, applied, filled, free, groups⟩ := settles
  refine ⟨[.grouped (.unary m e)], groupAfter_concat found applied filled free groups,
    List.cons_ne_nil _ _, ?_, groupTiers_single tighter (row + 1) (.inl rfl)⟩
  simp [Part.ends]

end Settles

end Abacus.Parse
