import Abacus.Proofs.Parse.Fallible

/-!
# Lines as lists

A line of linked nodes stands for a list of numbered items.  `Lists` says which
list that is, and each operation on lines is the operation on lists that its name
says.  The links are never looked at again.
-/

namespace Abacus.Parse

open Fallible

namespace Line

variable {α : Type}

def numbers (entries : List (Nat × α)) : List Nat := entries.map Prod.fst

@[simp] theorem numbers_nil : numbers ([] : List (Nat × α)) = [] := rfl

@[simp] theorem numbers_cons (entry : Nat × α) (entries : List (Nat × α)) :
    numbers (entry :: entries) = entry.1 :: numbers entries := rfl

@[simp] theorem numbers_append (a b : List (Nat × α)) :
    numbers (a ++ b) = numbers a ++ numbers b := List.map_append

/-- Whether the nodes of some entries are linked in order, with given neighbours at both ends. -/
def Segment (nodes : Array (Node α)) (previous : Option Nat) :
    List (Nat × α) → (next : Option Nat) → Prop
  | [], _ => True
  | (id, item) :: rest, next =>
    nodes[id]? = some ⟨item, previous, (numbers rest).head?.or next⟩ ∧
      Segment nodes (some id) rest next

theorem segment_append {nodes : Array (Node α)} {previous next : Option Nat}
    {a b : List (Nat × α)} : Segment nodes previous (a ++ b) next ↔
      Segment nodes previous a ((numbers b).head?.or next) ∧
      Segment nodes ((numbers a).getLast?.or previous) b next := by
  induction a generalizing previous with
  | nil => simp [Segment]
  | cons entry rest inductionHypothesis =>
    obtain ⟨id, item⟩ := entry
    have last : ((numbers ((id, item) :: rest)).getLast?.or previous) =
        (numbers rest).getLast?.or (some id) := by
      cases rest with
      | nil => rfl
      | cons second others =>
        simp [List.getLast?_eq_some_getLast]
    rw [List.cons_append, Segment, Segment, inductionHypothesis, last, numbers_append,
      List.head?_append, Option.or_assoc, and_assoc]

theorem Segment.frame {nodes nodes' : Array (Node α)} {entries : List (Nat × α)}
    {previous next : Option Nat} (segment : Segment nodes previous entries next)
    (same : ∀ id ∈ numbers entries, nodes'[id]? = nodes[id]?) :
    Segment nodes' previous entries next := by
  induction entries generalizing previous with
  | nil => exact True.intro
  | cons entry rest inductionHypothesis =>
    rw [numbers_cons, List.forall_mem_cons] at same
    exact ⟨same.1.trans segment.1, inductionHypothesis segment.2 same.2⟩

theorem Segment.lt_size {nodes : Array (Node α)} {entries : List (Nat × α)}
    {previous next : Option Nat} (segment : Segment nodes previous entries next) :
    ∀ id ∈ numbers entries, id < nodes.size := by
  induction entries generalizing previous with
  | nil => exact fun _ member => nomatch member
  | cons entry rest inductionHypothesis =>
    rw [numbers_cons, List.forall_mem_cons]
    exact ⟨(Array.getElem?_eq_some_iff.1 segment.1).1, inductionHypothesis segment.2⟩

theorem Segment.relink {nodes nodes' : Array (Node α)} {entries : List (Nat × α)}
    {previous next : Option Nat} (segment : Segment nodes previous entries next)
    (nodup : (numbers entries).Nodup) {new : Nat}
    (changed : ∀ id ∈ numbers entries, nodes'[id]? =
      if (numbers entries).getLast? = some id then
        nodes[id]?.map fun node => { node with next := some new }
      else nodes[id]?) : Segment nodes' previous entries (some new) := by
  rcases List.eq_nil_or_concat entries with rfl | ⟨init, ⟨id, item⟩, rfl⟩
  · exact True.intro
  · rw [List.concat_eq_append] at segment nodup changed ⊢
    rw [numbers_append, List.nodup_append] at nodup
    obtain ⟨start, here, _⟩ := segment_append.1 segment
    refine segment_append.2 ⟨start.frame fun other member => ?_, ?_, True.intro⟩
    · have ne : id ≠ other := Ne.symm (nodup.2.2 other member id List.mem_cons_self)
      have same := changed other (by simp [member])
      simpa [ne] using same
    · have relinked := changed id (by simp)
      simpa [here] using relinked

/-- The numbers met by following the links forwards from a place for as long as there is one.
    Where the links run in a circle nothing is met in this sense. -/
inductive Visits (l : Line α) : Option Nat → List Nat → Prop
  | done : l.Visits none []
  | step {id : Nat} {rest : List Nat} : l.Visits (l.next? id) rest → l.Visits (some id) (id :: rest)

theorem Visits.unique {l : Line α} {start : Option Nat} {met other : List Nat}
    (visits : l.Visits start met) (visitsOther : l.Visits start other) : other = met := by
  induction visits generalizing other with
  | done =>
    cases visitsOther
    rfl
  | step _ inductionHypothesis =>
    cases visitsOther with
    | step visitsRest => rw [inductionHypothesis visitsRest]

theorem Visits.follow {l : Line α} {start : Option Nat} {met : List Nat}
    (visits : l.Visits start met) {steps : Nat} (enough : met.length ≤ steps) :
    l.follow steps start = met := by
  induction visits generalizing steps with
  | done => cases steps <;> rfl
  | @step id rest _ inductionHypothesis =>
    cases steps with
    | zero => cases enough
    | succ steps =>
      change id :: l.follow steps (l.next? id) = id :: rest
      rw [inductionHypothesis (Nat.le_of_succ_le_succ enough)]

/-- Whether a line stands for a list of numbered items. -/
structure Lists (l : Line α) (entries : List (Nat × α)) : Prop where
  size : l.size = entries.length
  nodup : (numbers entries).Nodup
  first : l.first = (numbers entries).head?
  last : l.last = (numbers entries).getLast?
  segment : Segment l.nodes none entries none

theorem getElem?_nodes_insertBefore (l : Line α) (next : Nat) (new : α) (id : Nat) :
    (l.insertBefore (some next) new).nodes[id]? =
      if l.previous? next = some id then
        (if next = id then
          (l.nodes.push ⟨new, l.previous? next, some next⟩)[id]?.map
            fun node => { node with previous := some l.size }
        else (l.nodes.push ⟨new, l.previous? next, some next⟩)[id]?).map
          fun node => { node with next := some l.size }
      else if next = id then
        (l.nodes.push ⟨new, l.previous? next, some next⟩)[id]?.map
          fun node => { node with previous := some l.size }
      else (l.nodes.push ⟨new, l.previous? next, some next⟩)[id]? := by
  unfold insertBefore
  cases previous : l.previous? next with
  | none => simp only [previous, Array.getElem?_modify, reduceCtorEq, if_false]
  | some last => simp only [previous, Array.getElem?_modify, Option.some.injEq]

namespace Lists

variable {l : Line α} {entries : List (Nat × α)}

theorem lt_size (lists : l.Lists entries) : ∀ id ∈ numbers entries, id < l.size :=
  lists.segment.lt_size

theorem node {before after : List (Nat × α)} {id : Nat} {item : α}
    (lists : l.Lists (before ++ (id, item) :: after)) :
    l.nodes[id]? = some ⟨item, (numbers before).getLast?, (numbers after).head?⟩ := by
  have linked := (segment_append.1 lists.segment).2.1
  rwa [Option.or_none, Option.or_none] at linked

theorem apart {before after : List (Nat × α)} {id : Nat} {item : α}
    (lists : l.Lists (before ++ (id, item) :: after)) :
    (numbers before).Nodup ∧ id ∉ numbers before ∧ id ∉ numbers after ∧
      ∀ other ∈ numbers after, other ∉ numbers before := by
  have nodup := lists.nodup
  rw [numbers_append, numbers_cons, List.nodup_append, List.nodup_cons] at nodup
  refine ⟨nodup.1, fun member => nodup.2.2 id member id List.mem_cons_self rfl,
    nodup.2.1.1, fun other behind ahead => ?_⟩
  exact nodup.2.2 other ahead other (List.mem_cons_of_mem _ behind) rfl

theorem fresh (lists : l.Lists entries) {id : Nat} (member : id ∈ numbers entries) : id ≠ l.size :=
  Nat.ne_of_lt (lists.lt_size id member)

/-! ## Reading -/

theorem next? {before after : List (Nat × α)} {id : Nat} {item : α}
    (lists : l.Lists (before ++ (id, item) :: after)) : l.next? id = (numbers after).head? := by
  rw [Line.next?, lists.node]
  rfl

theorem previous? {before after : List (Nat × α)} {id : Nat} {item : α}
    (lists : l.Lists (before ++ (id, item) :: after)) :
    l.previous? id = (numbers before).getLast? := by
  rw [Line.previous?, lists.node]
  rfl

theorem visits {before after : List (Nat × α)} (lists : l.Lists (before ++ after)) :
    l.Visits (numbers after).head? (numbers after) := by
  induction after generalizing before with
  | nil => exact .done
  | cons entry rest inductionHypothesis =>
    obtain ⟨id, item⟩ := entry
    have shifted : l.Lists ((before ++ [(id, item)]) ++ rest) := by
      rwa [List.append_assoc]
    refine .step ?_
    rw [lists.next?]
    exact inductionHypothesis shifted

theorem ids (lists : l.Lists entries) : l.ids = numbers entries := by
  have whole : l.Lists ([] ++ entries) := lists
  have enough : (numbers entries).length ≤ l.size := by
    rw [numbers, List.length_map]
    exact Nat.le_of_eq lists.size.symm
  rw [Line.ids, lists.first]
  exact whole.visits.follow enough

theorem get? {before after : List (Nat × α)} {id : Nat} {item : α}
    (lists : l.Lists (before ++ (id, item) :: after)) : l.get? id = some item := by
  rw [Line.get?, lists.node]
  rfl

theorem toList (lists : l.Lists entries) : l.toList = entries.map Prod.snd := by
  have suffix_items (before after : List (Nat × α)) (lists : l.Lists (before ++ after)) :
      (numbers after).filterMap l.get? = after.map Prod.snd := by
    induction after generalizing before with
    | nil => rfl
    | cons entry rest inductionHypothesis =>
      have shifted : l.Lists ((before ++ [entry]) ++ rest) := by
        rwa [List.append_assoc]
      rw [numbers_cons, List.filterMap_cons, lists.get?, inductionHypothesis _ shifted]
      rfl
  rw [Line.toList, lists.ids]
  exact suffix_items [] entries lists

/-! ## Writing -/

theorem empty : (Line.empty : Line α).Lists [] where
  size := rfl
  nodup := List.nodup_nil
  first := rfl
  last := rfl
  segment := True.intro

theorem set {before after : List (Nat × α)} {id : Nat} {item : α}
    (lists : l.Lists (before ++ (id, item) :: after)) (new : α) :
    (l.set id new).Lists (before ++ (id, new) :: after) := by
  obtain ⟨_, ahead, behind, _⟩ := lists.apart
  have unchanged (other : Nat) (ne : id ≠ other) :
      (l.set id new).nodes[other]? = l.nodes[other]? := by
    simp [Line.set, Array.getElem?_modify, ne]
  obtain ⟨first, here, last⟩ := segment_append.1 lists.segment
  have linked : Segment (l.set id new).nodes none (before ++ (id, new) :: after) none := by
    refine segment_append.2 ⟨first.frame fun other member => ?_, ?_, last.frame fun other member => ?_⟩
    · exact unchanged other fun same => ahead (same ▸ member)
    · simp [Line.set, Array.getElem?_modify, here]
    · exact unchanged other fun same => behind (same ▸ member)
  exact {
    size := by
      have := lists.size
      simpa [Line.set, Line.size] using this
    nodup := by simpa using lists.nodup
    first := by simpa [Line.set] using lists.first
    last := by simpa [Line.set] using lists.last
    segment := linked }

theorem push (lists : l.Lists entries) (new : α) :
    (l.push new).Lists (entries ++ [(l.size, new)]) := by
  have distinct : (numbers (entries ++ [(l.size, new)])).Nodup := by
    rw [numbers_append, List.nodup_append]
    refine ⟨lists.nodup, List.pairwise_singleton _ _, fun id member other single => ?_⟩
    rw [List.mem_singleton.1 single]
    exact lists.fresh member
  cases last : l.last with
  | none =>
    have none_yet : entries = [] := by
      have empty := lists.last.symm.trans last
      rwa [List.getLast?_eq_none_iff, numbers, List.map_eq_nil_iff] at empty
    subst none_yet
    have size : l.nodes.size = 0 := lists.size
    exact {
      size := by simp [Line.push, last, Line.size, size]
      nodup := distinct
      first := by simp [Line.push, last]
      last := by simp [Line.push, last]
      segment := by simp [Line.push, last, Line.size, Segment] }
  | some final =>
    have ends : (numbers entries).getLast? = some final := lists.last.symm.trans last
    have first : (numbers entries).head?.isSome := by
      cases entries with
      | nil => cases ends
      | cons _ _ => rfl
    have nodes : (l.push new).nodes = (l.nodes.push ⟨new, some final, none⟩).modify final
        fun node => { node with next := some l.size } := by
      simp [Line.push, last]
    have linked : Segment (l.push new).nodes none (entries ++ [(l.size, new)]) none := by
      rw [nodes]
      refine segment_append.2
        ⟨lists.segment.relink lists.nodup fun id member => ?_, ?_, True.intro⟩
      · have old : id < l.nodes.size := lists.lt_size id member
        simp [ends, Array.getElem?_modify, Array.getElem?_push, Nat.ne_of_lt old]
      · -- The new node itself is not the one whose link is changed.
        rw [Array.getElem?_modify, if_neg (lists.fresh (List.mem_of_getLast? ends)), ends]
        exact Array.getElem?_push_size
    exact {
      size := by
        have size : l.nodes.size = entries.length := lists.size
        simp [Line.push, last, Line.size, size]
      nodup := distinct
      first := by
        rw [numbers_append, List.head?_append, Option.or_of_isSome first, ← lists.first]
        simp [Line.push, last]
      last := by simp [Line.push, last]
      segment := linked }

/-- Of the old nodes only the two neighbours of the inserted one get another link. -/
theorem getElem?_insertBefore {before after : List (Nat × α)} {next : Nat} {item : α}
    (lists : l.Lists (before ++ (next, item) :: after)) (new : α) {id : Nat} (old : id ≠ l.size) :
    (l.insertBefore (some next) new).nodes[id]? =
      if (numbers before).getLast? = some id then
        l.nodes[id]?.map fun node => { node with next := some l.size }
      else if next = id then
        l.nodes[id]?.map fun node => { node with previous := some l.size }
      else l.nodes[id]? := by
  have notNext (last : (numbers before).getLast? = some id) : next ≠ id := fun same =>
    lists.apart.2.1 (same ▸ List.mem_of_getLast? last)
  change id ≠ l.nodes.size at old
  rw [getElem?_nodes_insertBefore, Array.getElem?_push, if_neg old, lists.previous?]
  split
  · rw [if_neg (notNext ‹_›)]
  · rfl

theorem node_insertBefore {before after : List (Nat × α)} {next : Nat} {item : α}
    (lists : l.Lists (before ++ (next, item) :: after)) (new : α) :
    (l.insertBefore (some next) new).nodes[l.size]? =
      some ⟨new, (numbers before).getLast?, some next⟩ := by
  have ne : (numbers before).getLast? ≠ some l.size := fun last =>
    lists.fresh (by simp [List.mem_of_getLast? last]) rfl
  rw [getElem?_nodes_insertBefore, lists.previous?, if_neg ne, if_neg (lists.fresh (by simp))]
  exact Array.getElem?_push_size

/-- The parts: what is ahead, the inserted node, the one that it was inserted before, and the
    rest. -/
theorem segment_insertBefore {before after : List (Nat × α)} {next : Nat} {item : α}
    (lists : l.Lists (before ++ (next, item) :: after)) (new : α) :
    Segment (l.insertBefore (some next) new).nodes none
      (before ++ (l.size, new) :: (next, item) :: after) none := by
  obtain ⟨nodup, ahead, behind, separate⟩ := lists.apart
  have notLast (id : Nat) (outside : id ∉ numbers before) :
      (numbers before).getLast? ≠ some id :=
    fun last => outside (List.mem_of_getLast? last)
  obtain ⟨first, here, rest⟩ := segment_append.1 lists.segment
  refine segment_append.2 ⟨first.relink nodup fun id member => ?_, ?_, ?_,
    rest.frame fun id member => ?_⟩
  · have ne : next ≠ id := fun same => ahead (same ▸ member)
    rw [lists.getElem?_insertBefore new (lists.fresh (by simp [member]))]
    simp [ne]
  · rw [lists.node_insertBefore]
    simp
  · rw [lists.getElem?_insertBefore new (lists.fresh (by simp)), if_neg (notLast next ahead),
      if_pos rfl, here]
    rfl
  · have ne : next ≠ id := fun same => behind (same ▸ member)
    rw [lists.getElem?_insertBefore new (lists.fresh (by simp [member])),
      if_neg (notLast id (separate id member)), if_neg ne]

/-- An item is inserted before the entries behind the place that it is inserted at. -/
theorem insertBefore {before after : List (Nat × α)} (lists : l.Lists (before ++ after))
    (new : α) :
    (l.insertBefore (numbers after).head? new).Lists (before ++ (l.size, new) :: after) := by
  cases after with
  | nil =>
    rw [List.append_nil] at lists
    exact lists.push new
  | cons entry after =>
    obtain ⟨next, item⟩ := entry
    have distinct : (numbers (before ++ (l.size, new) :: (next, item) :: after)).Nodup := by
      have middle : (numbers (before ++ (l.size, new) :: (next, item) :: after)).Perm
          (l.size :: numbers (before ++ (next, item) :: after)) := by
        simp only [numbers_append, numbers_cons]
        exact List.perm_middle
      exact middle.nodup_iff.2
        (List.nodup_cons.2 ⟨fun member => lists.fresh member rfl, lists.nodup⟩)
    have previous : l.previous? next = (numbers before).getLast? := lists.previous?
    exact {
      size := by
        have size : l.nodes.size = (before ++ (next, item) :: after).length := lists.size
        cases final : (numbers before).getLast? <;>
          simp [Line.insertBefore, previous, final, Line.size, size, Nat.add_assoc]
      nodup := distinct
      first := by
        cases before with
        | nil => simp [Line.insertBefore, previous]
        | cons entry rest =>
          simpa [Line.insertBefore, previous, List.getLast?_eq_some_getLast] using lists.first
      last := by
        have last : (l.insertBefore (some next) new).last = l.last := by
          cases final : (numbers before).getLast? <;> simp [Line.insertBefore, previous, final]
        refine last.trans (lists.last.trans ?_)
        simp [List.getLast?_append]
      segment := lists.segment_insertBefore new }

end Lists

def Represents (l : Line α) (items : List α) : Prop :=
  ∃ entries, l.Lists entries ∧ entries.map Prod.snd = items

theorem Represents.toList {l : Line α} {items : List α} (represents : l.Represents items) :
    l.toList = items := by
  obtain ⟨entries, lists, same⟩ := represents
  rw [lists.toList, same]

theorem Lists.push_represents {l : Line α} {entries : List (Nat × α)} (lists : l.Lists entries)
    (items : List α) : (items.foldl Line.push l).Represents (entries.map Prod.snd ++ items) := by
  induction items generalizing l entries with
  | nil => exact ⟨entries, lists, (List.append_nil _).symm⟩
  | cons item rest inductionHypothesis =>
    have represents := inductionHypothesis (lists.push item)
    rwa [List.map_append, List.append_assoc] at represents

theorem represents_ofList (items : List α) : (ofList items).Represents items :=
  Lists.empty.push_represents items

/-! ## Deciding roles -/

def spliced (default : Item) (decided : List (Item × Bool)) : List Item :=
  decided.flatMap fun (item, splices) => if splices then [item, default] else [item]

theorem Lists.writeBack {default : Item} {l : Line Item} {done todo : List (Nat × Item)}
    (lists : l.Lists (done ++ todo)) {decided : List (Item × Bool)}
    (same : decided.length = todo.length) :
    (l.writeBack default ((numbers todo).zip decided)).Represents
      (done.map Prod.snd ++ spliced default decided) := by
  induction todo generalizing l done decided with
  | nil =>
    rw [List.eq_nil_of_length_eq_zero same]
    exact ⟨_, lists, by simp [spliced]⟩
  | cons entry todo inductionHypothesis =>
    obtain ⟨id, old⟩ := entry
    cases decided with
    | nil => cases same
    | cons pair decided =>
      obtain ⟨item, splices⟩ := pair
      have shorter : decided.length = todo.length := Nat.succ.inj same
      have written := lists.set item
      have shifted : (l.set id item).Lists ((done ++ [(id, item)]) ++ todo) := by
        rwa [List.append_assoc]
      rw [numbers_cons, List.zip_cons_cons, Line.writeBack]
      -- A spliced operator is inserted before the next entry, the first that is left to do.
      cases splices with
      | false =>
        have represents := inductionHypothesis shifted shorter
        rwa [List.map_append, List.append_assoc] at represents
      | true =>
        have inserted := shifted.insertBefore default
        rw [← written.next?, List.append_cons] at inserted
        have represents := inductionHypothesis inserted shorter
        rwa [List.map_append, List.map_append, List.append_assoc, List.append_assoc] at represents

end Line

/-! ## What the parser does with a line -/

theorem decideRoles_cons_eq_ok {afterOperand : Bool} {item : Item} {rest : List Item}
    {decided : List (Item × Bool)} (ends : decideRoles afterOperand (item :: rest) = .ok decided) :
    ∃ first splices more, decideItem afterOperand rest.head? item = .ok first ∧
      splices = (first.closesOperand && rest.head?.any Item.opensOperand) ∧
      decideRoles (first.closesOperand && !splices) rest = .ok more ∧
      decided = (first, splices) :: more := by
  obtain ⟨first, decides, ends⟩ := bind_eq_ok.1 ends
  obtain ⟨more, decidesRest, ends⟩ := bind_eq_ok.1 ends
  cases ends
  exact ⟨first, _, more, decides, rfl, decidesRest, rfl⟩

theorem length_decideRoles {items : List Item} {afterOperand : Bool}
    {decided : List (Item × Bool)} (ends : decideRoles afterOperand items = .ok decided) :
    decided.length = items.length := by
  induction items generalizing afterOperand decided with
  | nil =>
    cases ends
    rfl
  | cons item rest inductionHypothesis =>
    obtain ⟨first, splices, more, _, _, decidesRest, rfl⟩ := decideRoles_cons_eq_ok ends
    exact congrArg (· + 1) (inductionHypothesis decidesRest)

namespace Line

theorem represents_decide {g : Grammar} {items : List Item} {l : Line Item}
    (ends : (ofList items).decide g = .ok l) :
    ∃ decided, decideRoles false items = .ok decided ∧
      l.Represents (spliced (.operator g.default) decided) := by
  obtain ⟨entries, lists, same⟩ := represents_ofList items
  obtain ⟨decided, decides, ends⟩ := bind_eq_ok.1 ends
  cases ends
  rw [lists.toList, same] at decides
  refine ⟨decided, decides, ?_⟩
  rw [lists.ids]
  have length : decided.length = entries.length := by
    rw [length_decideRoles decides, ← same, List.length_map]
  have whole : (ofList items).Lists ([] ++ entries) := lists
  exact whole.writeBack length

theorem Represents.withLeading {l : Line Item} {items : List Item}
    (represents : l.Represents items) (leading : Option Expr) :
    l.withLeading leading = l ∨ ∃ e role rest, leading = some e ∧ items = .operator role :: rest ∧
      (l.withLeading leading).Represents (.operand e :: items) := by
  obtain ⟨entries, lists, rfl⟩ := represents
  unfold Line.withLeading
  split
  · rename_i e role found
    refine .inr ?_
    rw [lists.first] at found
    cases entries with
    | nil => cases found
    | cons entry rest =>
      obtain ⟨id, item⟩ := entry
      have whole : l.Lists ([] ++ (id, item) :: rest) := lists
      have first : l.get? id = some item := whole.get?
      have isOperator : item = .operator role := Option.some.inj (first.symm.trans found)
      have inserted := whole.insertBefore (.operand e)
      rw [← lists.first] at inserted
      exact ⟨e, role, rest.map Prod.snd, rfl, by rw [← isOperator]; rfl, _, inserted, rfl⟩
  · exact .inl rfl

end Line

end Abacus.Parse
