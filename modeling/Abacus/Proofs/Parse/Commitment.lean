import Abacus.Proofs.Parse.Refusal
import Abacus.Proofs.Parse.Written

/-!
# The committed items of a line

Deciding the roles of a line keeps its items in order: an operand stays what it is and a
symbol plays one of its roles.  The default operator is spliced in exactly where an operand
ends and the next one starts, and what the line continues from only stands in front of an
operator.
-/

namespace Abacus.Parse

open Fallible

/-- What may become of an item when its role is decided. -/
inductive Item.Plays : Item → Item → Prop where
  | operand (e : Expr) : Plays (.operand e) (.operand e)
  | operator {text : String} {roles : Roles} {role : Role Operator} :
      roles.operator = some role → Plays (.symbol text roles) (.operator role)
  | before {text : String} {roles : Roles} {role : Role Modifier} :
      roles.before = some role → Plays (.symbol text roles) (.before role)
  | after {text : String} {roles : Roles} {role : Role Modifier} :
      roles.after = some role → Plays (.symbol text roles) (.after role)

/-- Decided items with the default operator between every two of them of which the first ends an
    operand and the second starts one. -/
def withDefaults (default : Item) : List Item → List Item
  | [] => []
  | i :: rest =>
    if i.closesOperand && rest.head?.any Item.startsOperand then i :: default :: withDefaults default rest
    else i :: withDefaults default rest

/-- Decided items behind what the line continues from, if they start with an operator. -/
def continued : Option Expr → List Item → List Item
  | some e, .operator role :: rest => .operand e :: .operator role :: rest
  | _, items => items

/-- What the items of a line are committed to: their roles are decided in order, the default
    operator is spliced in, and what the line continues from is put in front. -/
def Commits (g : Grammar) (leading : Option Expr) (items committed : List Item) : Prop :=
  ∃ decided, List.Forall₂ Item.Plays items decided ∧
    committed = continued leading (withDefaults (.operator g.default) decided)

/-! ## Deciding -/

/-- Items as they are found in a line: operands, and symbols of the grammar with their roles. -/
def Item.Found (g : Grammar) : Item → Prop
  | .operand e => e.isOperand ∧ e.isVoid = false
  | .symbol text roles => g.roles? text = some roles
  | .operator _ | .before _ | .after _ => False

theorem plays_of_decideItem {g : Grammar} {afterOperand : Bool} {next : Option Item} {i j : Item}
    (found : i.Found g) (decides : decideItem afterOperand next i = .ok j) : i.Plays j := by
  cases i with
  | operand e =>
    cases decides
    exact .operand e
  | symbol text roles =>
    unfold decideItem at decides
    dsimp only at decides
    split at decides
    · rename_i decided
      cases decides
      rcases decideRole_eq_some decided with ⟨_, role, rfl⟩ | ⟨_, role, rfl⟩ | ⟨_, role, rfl⟩
      · exact .operator role
      · exact .before role
      · exact .after role
    · cases decides
  | operator _ | before _ | after _ => cases found

theorem startsOperand_of_decideItem {next : Option Item} {i j : Item}
    (decides : decideItem false next i = .ok j) (opens : i.opensOperand) : j.startsOperand := by
  cases i with
  | operand e | before role =>
    cases decides
    rfl
  | symbol text roles =>
    obtain ⟨operator, before, after⟩ := roles
    cases before with
    | none => simp [Item.opensOperand] at opens
    | some role =>
      cases decides
      rfl
  | operator _ | after _ => cases opens

theorem plays_of_decideRoles {g : Grammar} {afterOperand : Bool} {items : List Item}
    {decided : List (Item × Bool)} (found : ∀ i ∈ items, i.Found g)
    (ends : decideRoles afterOperand items = .ok decided) :
    List.Forall₂ Item.Plays items (decided.map Prod.fst) := by
  induction items generalizing afterOperand decided with
  | nil =>
    cases ends
    exact .nil
  | cons item rest inductionHypothesis =>
    rw [List.forall_mem_cons] at found
    obtain ⟨first, splices, more, decides, _, decidesRest, rfl⟩ := decideRoles_cons_eq_ok ends
    exact .cons (plays_of_decideItem found.1 decides) (inductionHypothesis found.2 decidesRest)

/-- The default operator is spliced in where an operand ends and the next one starts. -/
theorem spliced_eq_withDefaults (default : Item) {afterOperand : Bool} {items : List Item}
    {decided : List (Item × Bool)} (ends : decideRoles afterOperand items = .ok decided) :
    Line.spliced default decided = withDefaults default (decided.map Prod.fst) := by
  induction items generalizing afterOperand decided with
  | nil =>
    cases ends
    rfl
  | cons item rest inductionHypothesis =>
    obtain ⟨first, splices, more, _, rfl, decidesRest, rfl⟩ := decideRoles_cons_eq_ok ends
    -- The parser looks ahead at an undecided item; once decided it starts an operand just as well.
    have starts : (first.closesOperand && (more.map Prod.fst).head?.any Item.startsOperand) =
        (first.closesOperand && rest.head?.any Item.opensOperand) := by
      cases closes : first.closesOperand with
      | false => rfl
      | true =>
        cases rest with
        | nil =>
          cases decidesRest
          rfl
        | cons next rest =>
          obtain ⟨second, _, _, decidesNext, _, _, rfl⟩ := decideRoles_cons_eq_ok decidesRest
          rw [closes] at decidesNext
          cases opens : next.opensOperand with
          | true =>
            rw [show ((next :: rest).head?.any Item.opensOperand) = true from opens] at decidesNext
            exact (startsOperand_of_decideItem decidesNext opens).trans opens.symm
          | false =>
            rw [show ((next :: rest).head?.any Item.opensOperand) = false from opens] at decidesNext
            exact (not_startsOperand_of_decideItem decidesNext opens).trans opens.symm
    rw [spliced_cons, inductionHypothesis decidesRest, List.map_cons, withDefaults, starts]
    split <;> rfl

theorem toList_withLeading {l : Line Item} {items : List Item} (represents : l.Represents items)
    (leading : Option Expr) : (l.withLeading leading).toList = continued leading items := by
  have first : l.first.bind l.get? = items.head? := by
    obtain ⟨entries, lists, rfl⟩ := represents
    rw [lists.first]
    cases entries with
    | nil => rfl
    | cons entry rest =>
      have whole : l.Lists ([] ++ entry :: rest) := lists
      exact whole.get?
  by_cases continues : ∃ e role rest, leading = some e ∧ items = .operator role :: rest
  · obtain ⟨e, role, rest, rfl, rfl⟩ := continues
    obtain ⟨entries, lists, same⟩ := represents
    have whole : l.Lists ([] ++ entries) := lists
    have inserted := whole.insertBefore (.operand e)
    rw [← lists.first] at inserted
    have leads : Line.withLeading (some e) l = l.insertBefore l.first (.operand e) := by
      unfold Line.withLeading
      rw [first]
      rfl
    rw [leads, inserted.toList, List.nil_append, List.map_cons, same]
    rfl
  · have unchanged : l.withLeading leading = l := by
      unfold Line.withLeading
      rw [first]
      split
      · rename_i e role starts
        obtain ⟨rest, rfl⟩ := List.head?_eq_some_iff.1 starts
        exact absurd ⟨e, role, rest, rfl, rfl⟩ continues
      · rfl
    rw [unchanged, represents.toList]
    unfold continued
    split
    · rename_i e role rest
      exact absurd ⟨e, role, rest, rfl, rfl⟩ continues
    · rfl

theorem commits_of_decide {g : Grammar} {items : List Item} (found : ∀ i ∈ items, i.Found g)
    {l : Line Item} (ends : (Line.ofList items).decide g = .ok l) (leading : Option Expr) :
    Commits g leading items (l.withLeading leading).toList := by
  obtain ⟨decided, decides, represents⟩ := Line.represents_decide ends
  refine ⟨decided.map Prod.fst, plays_of_decideRoles found decides, ?_⟩
  rw [toList_withLeading represents, spliced_eq_withDefaults _ decides]

theorem toExpr_decide (g : Grammar) (leading : Option Expr) (items : List Item) :
    ((Line.ofList items).decide g >>= fun l => (l.withLeading leading).toExpr g) =
      (decideRoles false items >>= fun decided => groupTiers g.tiers 0
        ((continued leading (Line.spliced (.operator g.default) decided)).map .item)) := by
  have same := (Line.represents_ofList items).toList
  cases decides : decideRoles false items with
  | error cause =>
    rw [Line.decide, same, decides]
    rfl
  | ok decided =>
    obtain ⟨l, ends⟩ : ∃ l, (Line.ofList items).decide g = .ok l :=
      ⟨_, bind_eq_ok.2 ⟨decided, same.symm ▸ decides, rfl⟩⟩
    obtain ⟨decided', decides', represents⟩ := Line.represents_decide ends
    cases decides.symm.trans decides'
    rw [ends]
    change groupTiers g.tiers 0 _ = groupTiers g.tiers 0 _
    rw [toList_withLeading represents]

/-! ## Committed items -/

theorem mem_withDefaults {default i : Item} {items : List Item}
    (member : i ∈ withDefaults default items) : i ∈ items ∨ i = default := by
  induction items with
  | nil => exact .inl member
  | cons first rest inductionHypothesis =>
    have behind (member : i ∈ withDefaults default rest) : i ∈ first :: rest ∨ i = default :=
      (inductionHypothesis member).imp_left (List.mem_cons_of_mem first)
    rw [withDefaults] at member
    split at member
    · rcases List.mem_cons.1 member with rfl | member
      · exact .inl List.mem_cons_self
      · exact (List.mem_cons.1 member).elim .inr behind
    · rcases List.mem_cons.1 member with rfl | member
      · exact .inl List.mem_cons_self
      · exact behind member

theorem mem_continued {leading : Option Expr} {i : Item} {items : List Item}
    (member : i ∈ continued leading items) : i ∈ items ∨ ∃ e, leading = some e ∧ i = .operand e := by
  unfold continued at member
  split at member
  · rename_i e role rest
    exact (List.mem_cons.1 member).elim (fun same => .inr ⟨e, rfl, same⟩) .inl
  · exact .inl member

section

variable {g : Grammar} {leading : Option Expr} {items committed : List Item}
  (commits : Commits g leading items committed)

include commits

theorem Commits.cases {i : Item} (member : i ∈ committed) :
    (∃ item ∈ items, item.Plays i) ∨ i = .operator g.default ∨ ∃ e, leading = some e ∧ i = .operand e := by
  obtain ⟨decided, plays, rfl⟩ := commits
  rcases mem_continued member with member | continues
  · rcases mem_withDefaults member with member | default
    · obtain ⟨k, bound, rfl⟩ := List.mem_iff_getElem.1 member
      have bound' : k < items.length := plays.length_eq ▸ bound
      exact .inl ⟨items[k], List.getElem_mem bound', plays.get bound' bound⟩
    · exact .inr (.inl default)
  · exact .inr (.inr continues)

theorem Commits.operand {e : Expr} (member : .operand e ∈ committed) :
    .operand e ∈ items ∨ leading = some e := by
  rcases commits.cases member with ⟨item, found, plays⟩ | same | ⟨x, continues, same⟩
  · cases plays
    exact .inl found
  · cases same
  · cases same
    exact .inr continues

theorem Commits.registered {p : Grammar.Plan} (accepted : p.toGrammar = .ok g)
    (found : ∀ i ∈ items, i.Found g)
    (continues : ∀ e, leading = some e → e.isOperand ∧ e.isVoid = false) :
    ∀ i ∈ committed, i.Registered g := by
  intro i member
  rcases commits.cases member with ⟨item, there, plays⟩ | rfl | ⟨e, leads, rfl⟩
  · have known := found item there
    have fit {text : String} {roles : Roles} (found : g.roles? text = some roles) :=
      Grammar.fit_of_toGrammar accepted found
    cases plays with
    | operand e => exact known
    | operator operator =>
      obtain ⟨_, _, _, _, same⟩ := (fit known).operator operator
      exact ⟨_, same ▸ known, operator⟩
    | @before text roles role before =>
      have named : roles.modifier .before = some role := before
      obtain ⟨row, m⟩ := role
      obtain ⟨_, _, _, _, rfl⟩ := (fit known).modifier named
      exact ⟨rfl, roles, known, named⟩
    | @after text roles role after =>
      have named : roles.modifier .after = some role := after
      obtain ⟨row, m⟩ := role
      obtain ⟨_, _, _, _, rfl⟩ := (fit known).modifier named
      exact ⟨rfl, roles, known, named⟩
  · obtain ⟨roles, known, operator⟩ := Grammar.default_of_toGrammar accepted
    obtain ⟨_, _, _, _, same⟩ := (Grammar.fit_of_toGrammar accepted known).operator operator
    exact ⟨roles, same ▸ known, operator⟩
  · exact continues e leads

/-- What committed items are grouped into is, in written order, the committed items. -/
theorem Commits.written {p : Grammar.Plan} (accepted : p.toGrammar = .ok g)
    (found : ∀ i ∈ items, i.Found g)
    (continues : ∀ e, leading = some e → e.isOperand ∧ e.isVoid = false) {e : Expr}
    (groups : groupTiers g.tiers 0 (committed.map .item) = .ok e) : e.written g = committed :=
  written_of_groupTiers ⟨writtenParts_items committed, List.forall_mem_map.2
    (commits.registered accepted found continues)⟩ groups

end

end Abacus.Parse
