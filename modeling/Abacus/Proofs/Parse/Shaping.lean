import Abacus.Proofs.Parse.Separation
import Abacus.Proofs.Parse.Shape

/-!
# Grouping gives shaped expressions

What a tier leaves of a line are items, behind which at most one grouped operand
stands, and so by recursion on the tiers every line of registered items is grouped
into an expression of the shape of the first tier.
-/

namespace Abacus.Parse

open Fallible
open Abacus.Expr (Postfixed Stepped Signed Chained)
open Grammar (standard)

/-- Items within a row, behind which one grouped operand may stand. -/
inductive Ended (row : Nat) (C : Expr → Prop) : List Part → Prop where
  | nil : Ended row C []
  | last {e : Expr} : C e → Ended row C [.grouped e]
  | item {i : Item} {parts : List Part} : i.Within row → Ended row C parts →
      Ended row C (.item i :: parts)

namespace Ended

variable {row : Nat} {C : Expr → Prop} {parts : List Part}

theorem weaken {D : Expr → Prop} (ended : Ended row C parts) (imp : ∀ e, C e → D e) :
    Ended row D parts := by
  induction ended with
  | nil => exact .nil
  | last good => exact .last (imp _ good)
  | item within _ inductionHypothesis => exact .item within inductionHypothesis

theorem ofItems {items : List Item} (within : ∀ i ∈ items, i.Within row) :
    Ended row C (items.map Part.item) := by
  induction items with
  | nil => exact .nil
  | cons i items inductionHypothesis =>
    rw [List.forall_mem_cons] at within
    exact .item within.1 (inductionHypothesis within.2)

theorem forall_mem {P : Part → Prop} (ended : Ended row C parts)
    (items : ∀ i : Item, i.Within row → P (.item i)) (grouped : ∀ e, P (.grouped e)) :
    ∀ q ∈ parts, P q := by
  induction ended with
  | nil => exact fun _ member => by cases member
  | last _ => exact List.forall_mem_singleton.2 (grouped _)
  | item within _ inductionHypothesis =>
    exact List.forall_mem_cons.2 ⟨items _ within, inductionHypothesis⟩

end Ended

theorem Item.Within.tighter {row : Nat} {i : Item} (within : i.Within row)
    (operator : (Part.item i).operator? row = none)
    (modifier : ∀ side, (Part.item i).modifier? row side = none) : i.Within (row + 1) := by
  cases i with
  | operand e => exact within
  | symbol text roles => exact within
  | operator role =>
    have other : role.row ≠ row := fun same => by simp [Part.operator?, same] at operator
    exact ⟨by have := within.1; omega, within.2⟩
  | before role =>
    have other : role.row ≠ row := fun same => by simpa [Part.modifier?, same] using modifier .before
    exact ⟨by have := within.1; omega, within.2⟩
  | after role =>
    have other : role.row ≠ row := fun same => by simpa [Part.modifier?, same] using modifier .after
    exact ⟨by have := within.1; omega, within.2⟩

/-! ## Modifiers behind operands -/

/-- An operand that no modifier can be behind of any more. -/
def Part.Finished : Part → Prop
  | .item (.operand e) => e.isOperand
  | .grouped e => Postfixed e
  | .item _ => False

theorem postfixed_of_single {parts : List Part} (finished : ∀ p ∈ parts, p.Finished) {e : Expr}
    (groups : single parts = .ok e) : Postfixed e := by
  unfold single at groups
  split at groups
  · cases groups
    exact .operand rfl
  · cases groups
    exact finished _ (List.mem_singleton.2 rfl)
  · cases groups
    exact .operand (finished _ (List.mem_singleton.2 rfl))
  · cases groups

theorem postfixed_of_groupAfter {C : Expr → Prop} {parts passed result : List Part} {e : Expr}
    (ended : Ended 11 C parts) (finished : ∀ p ∈ passed, p.Finished)
    (groups : groupAfter (groupTiers [] 12) 11 passed parts = .ok result)
    (last : single result = .ok e) : Postfixed e ∨ C e := by
  induction ended generalizing passed result with
  | nil =>
    cases groups
    exact .inl (postfixed_of_single (fun p member => finished p (List.mem_reverse.1 member)) last)
  | @last y good =>
    -- Nothing may stand in front of a grouped operand, since there is a single result.
    have whole : result = passed.reverse ++ [.grouped y] := by
      cases groups
      simp
    subst whole
    generalize passed.reverse = front at last
    rcases front with _ | ⟨p, _ | ⟨q, more⟩⟩
    · cases last
      exact .inr good
    · simp [single] at last
    · simp [single] at last
  | @item i parts within _ inductionHypothesis =>
    rw [groupAfter] at groups
    cases i with
    | symbol text roles => exact within.elim
    | operator role =>
      have := Grammar.row_of_operates within.2
      have := within.1
      omega
    | before role =>
      have := (Grammar.row_of_modifies within.2.2).1 within.2.1
      have := within.1
      omega
    | operand e =>
      have operand : Part.Finished (.item (.operand e)) := within
      exact inductionHypothesis (List.forall_mem_cons.2 ⟨operand, finished⟩) groups last
    | after role =>
      have row := (Grammar.row_of_modifies within.2.2).2 within.2.1
      have found : (Part.item (.after role)).modifier? 11 .after = some role.member := by
        simp [Part.modifier?, row]
      rw [found] at groups
      obtain ⟨modified, modifies, groups⟩ := bind_eq_ok.1 groups
      obtain ⟨x, inner, rfl⟩ := modify_eq_ok modifies
      have taken : ∀ p ∈ (passed.takeWhile fun q => !q.ends 11 .after).reverse, p.Finished :=
        fun p member => finished p ((List.takeWhile_sublist _).subset (List.mem_reverse.1 member))
      have behind : Part.Finished (.grouped (.unary role.member x)) :=
        .after within.2.1 (row ▸ within.2.2) (postfixed_of_single taken inner)
      refine inductionHypothesis (List.forall_mem_cons.2 ⟨behind, fun p member => ?_⟩) groups last
      exact finished p ((List.dropWhile_sublist _).subset member)

theorem postfixed_of_groups {C : Expr → Prop} {parts : List Part} {e : Expr}
    (ended : Ended 11 C parts) (groups : groupTiers (standard.tiers.drop 11) 11 parts = .ok e) :
    Postfixed e ∨ C e := by
  obtain ⟨result, applied, last⟩ := bind_eq_ok.1 groups
  exact postfixed_of_groupAfter ended (List.forall_mem_nil _) applied last

/-! ## Modifiers before operands -/

/-- Of a tier of modifiers before operands at most one grouped operand is left, behind the items
    that have no such modifier before them. -/
theorem ended_of_groupBefore {row : Nat} (modifiers : row = 8 ∨ row = 10) {C R : Expr → Prop}
    {inner : List Part → Except ParseError Expr} {parts result : List Part}
    (groupsInner : ∀ rest x, Ended (row + 1) C rest → inner rest = .ok x → R x)
    (modified : ∀ m x, standard.Modifies row m → R x → C (.unary m x))
    (ended : Ended row C parts) (groups : groupBefore inner row parts = .ok result) :
    Ended (row + 1) C result := by
  induction ended generalizing result with
  | nil =>
    cases groups
    exact .nil
  | last good =>
    cases groups
    exact .last good
  | @item i parts within _ inductionHypothesis =>
    obtain ⟨rest, groupsRest, groups⟩ := bind_eq_ok.1 groups
    have endedRest := inductionHypothesis groupsRest
    cases found : (Part.item i).modifier? row .before with
    | none =>
      rw [found] at groups
      cases groups
      refine .item (within.tighter ?_ fun side => ?_) endedRest
      · cases i with
        | operator role =>
          have := Grammar.row_of_operates within.2
          have other : role.row ≠ row := by omega
          simp [Part.operator?, other]
        | _ => rfl
      · cases side with
        | before => exact found
        | after =>
          cases i with
          | after role =>
            have := (Grammar.row_of_modifies within.2.2).2 within.2.1
            have other : role.row ≠ row := by omega
            simp [Part.modifier?, other]
          | _ => rfl
    | some m =>
      rw [found] at groups
      -- No modifier of this row is left behind this one, so it takes all that follows.
      have free : ∀ q ∈ rest, q.ends row .before = false := by
        refine endedRest.forall_mem (fun j within => ?_) fun _ => rfl
        rcases modifiers with rfl | rfl
        · exact (within.weaken (by omega)).free
        · exact (within.weaken (by omega)).free_of_step
      obtain ⟨taken, untaken⟩ := takes_all free
      rw [taken, untaken] at groups
      obtain ⟨_, modifies, ends⟩ := bind_eq_ok.1 groups
      obtain ⟨x, groupsX, rfl⟩ := modify_eq_ok modifies
      cases ends
      refine .last (modified m x ?_ (groupsInner rest x endedRest groupsX))
      cases i with
      | before role =>
        have row : role.row = row ∧ role.member = m := by simpa [Part.modifier?] using found
        obtain ⟨rfl, rfl⟩ := row
        exact within.2.2
      | after role => simp [Part.modifier?] at found
      | _ => cases found

theorem of_groupSteps {C : Expr → Prop} (postfixed : ∀ e, Postfixed e → C e)
    (step : ∀ m x, standard.Modifies 10 m → C x → C (.unary m x)) {parts : List Part} {e : Expr}
    (ended : Ended 10 C parts) (groups : groupTiers (standard.tiers.drop 10) 10 parts = .ok e) :
    C e := by
  have inner (rest : List Part) (x : Expr) (ended : Ended 11 C rest)
      (groups : groupTiers (standard.tiers.drop 11) 11 rest = .ok x) : C x :=
    (postfixed_of_groups ended groups).elim (postfixed x) id
  obtain ⟨rest, applied, groups⟩ := bind_eq_ok.1 groups
  exact inner rest e (ended_of_groupBefore (.inr rfl) inner step ended applied) groups

/-! ## Operators -/

/-- The parts before the first operator of a row and those behind each operator, of which only the
    last ones may end with a grouped operand. -/
def Segments (row : Nat) (C : Expr → Prop) : List Part → List (Operator × List Part) → Prop
  | segment, [] => Ended (row + 1) C segment
  | segment, (o, next) :: more => Ended (row + 1) (fun _ => False) segment ∧
    standard.Operates row o ∧ Segments row C next more

theorem Segments.cons {row : Nat} {C : Expr → Prop} {i : Item} (within : i.Within (row + 1))
    {segment : List Part} {more : List (Operator × List Part)}
    (segments : Segments row C segment more) : Segments row C (.item i :: segment) more := by
  cases more with
  | nil => exact .item within segments
  | cons entry more => exact ⟨.item within segments.1, segments.2⟩

theorem Segments.first {row : Nat} {segment : List Part} {more : List (Operator × List Part)}
    (segments : Segments row (fun _ => False) segment more) :
    Ended (row + 1) (fun _ => False) segment := by
  cases more with
  | nil => exact segments
  | cons entry more => exact segments.1

theorem segments_of_cutAt {row : Nat} (operators : row < 8 ∨ row = 9) {C : Expr → Prop}
    {parts : List Part} (ended : Ended row C parts) :
    Segments row C (cutAt row parts).1 (cutAt row parts).2 := by
  induction ended with
  | nil => exact .nil
  | last good => exact .last good
  | @item i parts within _ inductionHypothesis =>
    rw [cutAt_cons]
    cases found : (Part.item i).operator? row with
    | some o =>
      refine ⟨.nil, ?_, inductionHypothesis⟩
      cases i with
      | operator role =>
        have row : role.row = row ∧ role.member = o := by simpa [Part.operator?] using found
        obtain ⟨rfl, rfl⟩ := row
        exact within.2
      | _ => cases found
    | none =>
      refine inductionHypothesis.cons (within.tighter found fun side => ?_)
      cases i with
      | before role =>
        have := (Grammar.row_of_modifies within.2.2).1 within.2.1
        have other : role.row ≠ row := by omega
        simp [Part.modifier?, other]
      | after role =>
        have := (Grammar.row_of_modifies within.2.2).2 within.2.1
        have other : role.row ≠ row := by omega
        simp [Part.modifier?, other]
      | _ => rfl

theorem groupSegment_eq_ok {tighter : List Tier} {row : Nat} {entry : Operator × List Part}
    {result : Operator × Expr} (groups : groupSegment tighter row entry = .ok result) :
    ∃ e, groupTiers tighter row entry.2 = .ok e ∧ result = (entry.1, e) := by
  obtain ⟨e, groupsBehind, ends⟩ := bind_eq_ok.1 groups
  cases ends
  exact ⟨e, groupsBehind, rfl⟩

/-! ### Powers and signs -/

/-- What may stand at the end of a power without parentheses. -/
def AtEnd (e : Expr) : Prop := Signed e ∧ e.isBinary = false

theorem atEnd_of_groups {parts : List Part} {e : Expr} (ended : Ended 10 AtEnd parts)
    (groups : groupTiers (standard.tiers.drop 10) 10 parts = .ok e) : AtEnd e :=
  of_groupSteps (fun _ postfixed => (Stepped.postfixed postfixed).signed)
    (fun _ _ modifies atEnd => ⟨.step modifies atEnd.1 atEnd.2, rfl⟩) ended groups

theorem stepped_of_groups {parts : List Part} {e : Expr} (ended : Ended 10 (fun _ => False) parts)
    (groups : groupTiers (standard.tiers.drop 10) 10 parts = .ok e) : Stepped e :=
  of_groupSteps (fun _ => .postfixed) (fun _ _ => .step) (ended.weaken fun _ => False.elim) groups

theorem signed_of_segments {segment : List Part} {more : List (Operator × List Part)} {first : Expr}
    {rest : List (Operator × Expr)} (segments : Segments 9 AtEnd segment more)
    (groups : groupTiers (standard.tiers.drop 10) 10 segment = .ok first)
    (groupsMore : more.mapM (groupSegment (standard.tiers.drop 10) 10) = .ok rest) :
    Signed (foldRight first rest) := by
  induction more generalizing segment first rest with
  | nil =>
    cases groupsMore
    exact (atEnd_of_groups segments groups).1
  | cons entry more inductionHypothesis =>
    obtain ⟨ended, operates, segments⟩ := segments
    obtain ⟨_, others, next, groupsOthers, rfl⟩ := mapM_eq_ok_cons.1 groupsMore
    obtain ⟨e, groupsNext, rfl⟩ := groupSegment_eq_ok next
    exact .power operates (stepped_of_groups ended groups)
      (inductionHypothesis segments groupsNext groupsOthers)

theorem signed_of_groupPowers {parts : List Part} {e : Expr} (ended : Ended 9 AtEnd parts)
    (groups : groupTiers (standard.tiers.drop 9) 9 parts = .ok e) : Signed e := by
  obtain ⟨first, rest, groupsFirst, more, rfl⟩ := groupTiers_operators.1 groups
  exact signed_of_segments (segments_of_cutAt (.inr rfl) ended) groupsFirst more

theorem signed_of_groups {parts : List Part} {e : Expr} (ended : Ended 8 (fun _ => False) parts)
    (groups : groupTiers (standard.tiers.drop 8) 8 parts = .ok e) : Signed e := by
  obtain ⟨rest, applied, groups⟩ := bind_eq_ok.1 groups
  have inner (rest : List Part) (x : Expr) (ended : Ended 9 AtEnd rest)
      (groups : groupTiers (standard.tiers.drop 9) 9 rest = .ok x) : Signed x :=
    signed_of_groupPowers ended groups
  have closes (m : Modifier) (x : Expr) (modifies : standard.Modifies 8 m) (signed : Signed x) :
      AtEnd (.unary m x) := ⟨.sign modifies signed, rfl⟩
  have endedRest := ended_of_groupBefore (.inl rfl) inner closes
    (ended.weaken fun _ => False.elim) applied
  exact signed_of_groupPowers endedRest groups

/-! ### Chains -/

section

variable {row : Nat} {members : List Operator}
  (inner : ∀ {parts e}, Ended (row + 1) (fun _ => False) parts →
    groupTiers (standard.tiers.drop (row + 1)) (row + 1) parts = .ok e → Chained (row + 1) e)

include inner

theorem chained_foldLeft (loose : row < 8)
    (tier : standard.tiers[row]? = some (.operators .left members)) {segment : List Part}
    {more : List (Operator × List Part)} {first : Expr} {rest : List (Operator × Expr)}
    (segments : Segments row (fun _ => False) segment more) (chained : Chained row first)
    (groupsMore : more.mapM (groupSegment (standard.tiers.drop (row + 1)) (row + 1)) = .ok rest) :
    Chained row (foldLeft first rest) := by
  induction more generalizing segment first rest with
  | nil =>
    cases groupsMore
    exact chained
  | cons entry more inductionHypothesis =>
    obtain ⟨_, operates, segments⟩ := segments
    obtain ⟨_, others, next, groupsOthers, rfl⟩ := mapM_eq_ok_cons.1 groupsMore
    obtain ⟨e, groupsNext, rfl⟩ := groupSegment_eq_ok next
    have longer := Chained.left tier operates loose chained (inner segments.first groupsNext)
    have whole := inductionHypothesis segments longer groupsOthers
    exact whole

theorem chained_foldRight (loose : row < 8)
    (tier : standard.tiers[row]? = some (.operators .right members)) {segment : List Part}
    {more : List (Operator × List Part)} {first : Expr} {rest : List (Operator × Expr)}
    (segments : Segments row (fun _ => False) segment more) (chained : Chained (row + 1) first)
    (groupsMore : more.mapM (groupSegment (standard.tiers.drop (row + 1)) (row + 1)) = .ok rest) :
    Chained row (foldRight first rest) := by
  induction more generalizing segment first rest with
  | nil =>
    cases groupsMore
    exact .tighter loose chained
  | cons entry more inductionHypothesis =>
    obtain ⟨_, operates, segments⟩ := segments
    obtain ⟨_, others, next, groupsOthers, rfl⟩ := mapM_eq_ok_cons.1 groupsMore
    obtain ⟨e, groupsNext, rfl⟩ := groupSegment_eq_ok next
    exact .right tier operates loose chained
      (inductionHypothesis segments (inner segments.first groupsNext) groupsOthers)

end

/-- The tiers from a row on group items within that row into an expression of its shape. -/
theorem chained_of_groups {row : Nat} (loose : row ≤ 8) {parts : List Part} {e : Expr}
    (ended : Ended row (fun _ => False) parts)
    (groups : groupTiers (standard.tiers.drop row) row parts = .ok e) : Chained row e := by
  obtain ⟨tiers, rows⟩ : ∃ tiers, row + tiers = 8 := ⟨8 - row, by omega⟩
  induction tiers generalizing row parts e with
  | zero =>
    obtain rfl : row = 8 := rows
    exact .signed (signed_of_groups ended groups)
  | succ tiers inductionHypothesis =>
    have loose : row < 8 := by omega
    have inner {parts : List Part} {e : Expr} (ended : Ended (row + 1) (fun _ => False) parts)
        (groups : groupTiers (standard.tiers.drop (row + 1)) (row + 1) parts = .ok e) :
        Chained (row + 1) e := inductionHypothesis loose ended groups (by omega)
    obtain ⟨a, members, tier⟩ := Expr.exists_operators loose
    rw [Expr.tiers_drop tier] at groups
    obtain ⟨first, rest, groupsFirst, more, rfl⟩ := groupTiers_operators.1 groups
    have segments := segments_of_cutAt (.inl loose) ended
    have chained := inner segments.first groupsFirst
    cases a with
    | left => exact chained_foldLeft inner loose tier segments (.tighter loose chained) more
    | right => exact chained_foldRight inner loose tier segments chained more

end Abacus.Parse
