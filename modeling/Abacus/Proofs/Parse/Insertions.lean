import Abacus.Proofs.Parse.Arena
import Mathlib.Data.List.Perm.Subperm

/-!
# Insertions into a line

Beside a line that items are put into, a list is kept into which the same items are put: at its
end, or in front of an item that is already there.  As long as only numbers are named that were
handed out before, the line stands for that list: its links lead over all of it in both directions
and end, and every number keeps its item.
-/

namespace Abacus.Parse.Line

variable {α : Type}

/-! ## Insertions -/

/-- What can be asked of a line. -/
inductive Insertion (α : Type) where
  | push (item : α)
  | insertBefore (before : Option Nat) (item : α)

namespace Insertion

def item : Insertion α → α
  | .push item | .insertBefore _ item => item

def place : Insertion α → Option Nat
  | .push _ => none
  | .insertBefore before _ => before

/-- The line with the new item, and the number handed out for it. -/
def perform (l : Line α) : Insertion α → Line α × Nat
  | .push item => (l.push item, l.size)
  | .insertBefore before item => (l.insertBefore before item, l.size)

theorem perform_eq (l : Line α) (insertion : Insertion α) :
    insertion.perform l = (l.insertBefore insertion.place insertion.item, l.size) := by
  cases insertion <;> rfl

end Insertion

/-- A list of entries with a new one right in front of the entry with a number, and at the end if
    no number is given. -/
def placed (place : Option Nat) (new : Nat × α) : List (Nat × α) → List (Nat × α)
  | [] => [new]
  | entry :: rest =>
    if place = some entry.1 then new :: entry :: rest else entry :: placed place new rest

theorem placed_none (new : Nat × α) (entries : List (Nat × α)) :
    placed none new entries = entries ++ [new] := by
  induction entries with
  | nil => rfl
  | cons entry rest inductionHypothesis => simp [placed, inductionHypothesis]

theorem placed_some {before : List (Nat × α)} {id : Nat} (outside : id ∉ numbers before)
    (new : Nat × α) (item : α) (after : List (Nat × α)) :
    placed (some id) new (before ++ (id, item) :: after) =
      before ++ new :: (id, item) :: after := by
  induction before with
  | nil => simp [placed]
  | cons entry rest inductionHypothesis =>
    rw [numbers_cons, List.mem_cons, not_or] at outside
    obtain ⟨ne, outside⟩ := outside
    simp [placed, ne, inductionHypothesis outside]

theorem placed_perm (place : Option Nat) (new : Nat × α) (entries : List (Nat × α)) :
    (placed place new entries).Perm (new :: entries) := by
  induction entries with
  | nil => rfl
  | cons entry rest inductionHypothesis =>
    rw [placed]
    split
    · rfl
    · exact (inductionHypothesis.cons entry).trans (.swap ..)

structure Construction (α : Type) where
  line : Line α := Line.empty
  /-- The items under the numbers handed out for them, in the order of the insertions. -/
  handedOut : List (Nat × α) := []
  /-- The list that the line is to stand for. -/
  listed : List (Nat × α) := []

namespace Construction

/-- Puts an item into the line, and into the list under the number handed out for it. -/
def insert (c : Construction α) (insertion : Insertion α) : Construction α :=
  let (line, id) := insertion.perform c.line
  { line
    handedOut := c.handedOut ++ [(id, insertion.item)]
    listed := placed insertion.place (id, insertion.item) c.listed }

def insertAll (c : Construction α) (insertions : List (Insertion α)) : Construction α :=
  insertions.foldl insert c

/-- Whether each of some insertions names no other number than those handed out before it. -/
def Admits (c : Construction α) : List (Insertion α) → Prop
  | [] => True
  | insertion :: rest =>
    (∀ before ∈ insertion.place, before ∈ numbers c.handedOut) ∧ (c.insert insertion).Admits rest

instance decidableAdmits (c : Construction α) :
    (insertions : List (Insertion α)) → Decidable (c.Admits insertions)
  | [] => inferInstanceAs (Decidable True)
  | insertion :: rest =>
    have := decidableAdmits (c.insert insertion) rest
    inferInstanceAs (Decidable (_ ∧ _))

/-- Whether a line is the list that was kept beside it. -/
structure Faithful (c : Construction α) : Prop where
  /-- Following the links from the first item ends, and meets the numbers of the list in order. -/
  visits : ∀ met, c.line.Visits c.line.first met ↔ met = numbers c.listed
  ids : c.line.ids = numbers c.listed
  /-- The list has the entries that were handed out, each of them once. -/
  complete : c.listed.Perm c.handedOut
  nodup : (numbers c.handedOut).Nodup
  first : c.line.first = (numbers c.listed).head?
  last : c.line.last = (numbers c.listed).getLast?
  next : ∀ ahead id behind, numbers c.listed = ahead ++ id :: behind →
    c.line.next? id = behind.head?
  previous : ∀ ahead id behind, numbers c.listed = ahead ++ id :: behind →
    c.line.previous? id = ahead.getLast?
  inverse : ∀ id other, c.line.next? id = some other ↔ c.line.previous? other = some id
  holds : ∀ entry ∈ c.handedOut, c.line.get? entry.1 = some entry.2
  /-- The numbers handed out are the places of the nodes: no insertion looks for a node in vain. -/
  range : ∀ id, id ∈ numbers c.handedOut ↔ id < c.line.size

end Construction

/-! ## One insertion -/

theorem exists_split_of_mem_numbers {id : Nat} {entries : List (Nat × α)}
    (member : id ∈ numbers entries) :
    ∃ before item after, entries = before ++ (id, item) :: after := by
  obtain ⟨⟨_, item⟩, listed, rfl⟩ := List.mem_map.1 member
  obtain ⟨before, after, split⟩ := List.append_of_mem listed
  exact ⟨before, item, after, split⟩

namespace Lists

variable {l : Line α} {entries : List (Nat × α)}

theorem mem_numbers_iff (lists : l.Lists entries) {id : Nat} :
    id ∈ numbers entries ↔ id < l.size := by
  have below : numbers entries ⊆ List.range l.size := fun other member =>
    List.mem_range.2 (lists.lt_size other member)
  have enough : (List.range l.size).length ≤ (numbers entries).length := by
    rw [List.length_range, numbers, List.length_map]
    exact Nat.le_of_eq lists.size
  rw [((lists.nodup.subperm below).perm_of_length_le enough).mem_iff, List.mem_range]

theorem placed (lists : l.Lists entries) {place : Option Nat}
    (known : ∀ before ∈ place, before ∈ numbers entries) (new : α) :
    (l.insertBefore place new).Lists (Line.placed place (l.size, new) entries) := by
  cases place with
  | none =>
    rw [placed_none]
    exact lists.push new
  | some next =>
    obtain ⟨before, item, after, rfl⟩ := exists_split_of_mem_numbers (known next rfl)
    rw [placed_some lists.apart.2.1]
    exact lists.insertBefore new

/-! ## Links -/

theorem previous?_of_next? (lists : l.Lists entries) {id other : Nat}
    (next : l.next? id = some other) : l.previous? other = some id := by
  obtain ⟨node, found, _⟩ := Option.bind_eq_some_iff.1 next
  have member := lists.mem_numbers_iff.2 (Array.getElem?_eq_some_iff.1 found).1
  obtain ⟨before, item, after, rfl⟩ := exists_split_of_mem_numbers member
  rw [lists.next?] at next
  cases after with
  | nil => cases next
  | cons entry rest =>
    cases next
    have shifted : l.Lists ((before ++ [(id, item)]) ++ entry :: rest) := by
      rwa [List.append_assoc]
    rw [shifted.previous?]
    simp

theorem next?_of_previous? (lists : l.Lists entries) {id other : Nat}
    (previous : l.previous? other = some id) : l.next? id = some other := by
  obtain ⟨node, found, _⟩ := Option.bind_eq_some_iff.1 previous
  have member := lists.mem_numbers_iff.2 (Array.getElem?_eq_some_iff.1 found).1
  obtain ⟨before, item, after, rfl⟩ := exists_split_of_mem_numbers member
  rw [lists.previous?] at previous
  -- The number linked to is the last of those in front, so the list is cut there once more.
  rcases List.eq_nil_or_concat before with rfl | ⟨rest, ⟨last, lastItem⟩, rfl⟩
  · cases previous
  · have same : last = id := by simpa using previous
    rw [List.concat_eq_append, List.append_assoc] at lists
    rw [← same, lists.next?]
    rfl

theorem neighbours (lists : l.Lists entries) {ahead behind : List Nat} {id : Nat}
    (cut : numbers entries = ahead ++ id :: behind) :
    l.next? id = behind.head? ∧ l.previous? id = ahead.getLast? := by
  obtain ⟨before, rest, rfl, rfl, remaining⟩ := List.map_eq_append_iff.1 cut
  obtain ⟨⟨number, item⟩, after, rfl, rfl, rfl⟩ := List.map_eq_cons_iff.1 remaining
  exact ⟨lists.next?, lists.previous?⟩

end Lists

/-! ## Many insertions -/

namespace Construction

structure Sound (c : Construction α) : Prop where
  lists : c.line.Lists c.listed
  complete : c.listed.Perm c.handedOut

theorem Sound.empty : ({} : Construction α).Sound where
  lists := Lists.empty
  complete := .nil

theorem Sound.numbers_perm {c : Construction α} (sound : c.Sound) :
    (numbers c.listed).Perm (numbers c.handedOut) := sound.complete.map Prod.fst

theorem Sound.insert {c : Construction α} (sound : c.Sound) {insertion : Insertion α}
    (known : ∀ before ∈ insertion.place, before ∈ numbers c.handedOut) :
    (c.insert insertion).Sound := by
  have listed (before : Nat) (asked : before ∈ insertion.place) : before ∈ numbers c.listed :=
    sound.numbers_perm.mem_iff.2 (known before asked)
  rw [Construction.insert, insertion.perform_eq]
  exact {
    lists := sound.lists.placed listed insertion.item
    complete := by
      have added := (placed_perm insertion.place (c.line.size, insertion.item) c.listed).trans
        (sound.complete.cons _)
      exact added.trans (List.perm_append_singleton ..).symm }

theorem Sound.insertAll {c : Construction α} (sound : c.Sound) {insertions : List (Insertion α)}
    (admits : c.Admits insertions) : (c.insertAll insertions).Sound := by
  induction insertions generalizing c with
  | nil => exact sound
  | cons insertion rest inductionHypothesis =>
    exact inductionHypothesis (sound.insert admits.1) admits.2

/-- However items are put into a line, at its end or in front of items that it has, it stays the
    list that these insertions make. -/
theorem insertions_are_listed (insertions : List (Insertion α))
    (admits : ({} : Construction α).Admits insertions) :
    (({} : Construction α).insertAll insertions).Faithful := by
  have sound := Sound.empty.insertAll admits
  generalize ({} : Construction α).insertAll insertions = c at sound
  have lists := sound.lists
  have whole : c.line.Lists ([] ++ c.listed) := lists
  have visits : c.line.Visits c.line.first (numbers c.listed) := by
    rw [lists.first]
    exact whole.visits
  exact {
    visits := fun met => ⟨visits.unique, fun same => same ▸ visits⟩
    ids := lists.ids
    complete := sound.complete
    nodup := sound.numbers_perm.nodup_iff.1 lists.nodup
    first := lists.first
    last := lists.last
    next := fun _ _ _ cut => (lists.neighbours cut).1
    previous := fun _ _ _ cut => (lists.neighbours cut).2
    inverse := fun _ _ => ⟨lists.previous?_of_next?, lists.next?_of_previous?⟩
    holds := fun ⟨id, item⟩ member => by
      obtain ⟨before, after, split⟩ := List.append_of_mem (sound.complete.mem_iff.2 member)
      rw [split] at lists
      exact lists.get?
    range := fun id => by rw [← sound.numbers_perm.mem_iff, lists.mem_numbers_iff] }

/-- Items are put in front of the first one, at the end, in the middle and again at the same place. -/
theorem repeated_insertion_is_listed :
    let insertions : List (Insertion Char) := [.push 'c', .insertBefore (some 0) 'a', .push 'e',
      .insertBefore none 'f', .insertBefore (some 2) 'd', .insertBefore (some 0) 'b']
    let c := ({} : Construction Char).insertAll insertions
    ({} : Construction Char).Admits insertions ∧ c.Faithful ∧ c.line.ids = [1, 5, 0, 4, 2, 3] ∧
      c.line.toList = ['a', 'b', 'c', 'd', 'e', 'f'] := by
  intro insertions c
  have admits : ({} : Construction Char).Admits insertions := by decide
  exact ⟨admits, insertions_are_listed insertions admits, by decide, by decide⟩

end Construction

end Abacus.Parse.Line
