/-!
# Lines of items

A line is a sequence of items that can be inserted into anywhere.  Every item is
addressed by a number that it keeps for good: insertions only change the links
between neighbours.
-/

namespace Abacus.Parse

/-- An item with the numbers of its neighbours. -/
structure Node (α : Type) where
  item : α
  previous : Option Nat
  next : Option Nat

/-- Items numbered in the order in which they came and linked in the order of the
    line. -/
structure Line (α : Type) where
  nodes : Array (Node α) := #[]
  first : Option Nat := none
  last : Option Nat := none

namespace Line

variable {α : Type}

def empty : Line α := {}

/-- How many items there are; it is also the number of the next one. -/
def size (l : Line α) : Nat := l.nodes.size

/-- The item with a number. -/
def get? (l : Line α) (id : Nat) : Option α := l.nodes[id]?.map Node.item

/-- The number of the item after the one with number `id`. -/
def next? (l : Line α) (id : Nat) : Option Nat := l.nodes[id]?.bind Node.next

/-- The number of the item before the one with number `id`. -/
def previous? (l : Line α) (id : Nat) : Option Nat := l.nodes[id]?.bind Node.previous

/-- Replaces the item with a number. -/
def set (l : Line α) (id : Nat) (item : α) : Line α :=
  { l with nodes := l.nodes.modify id fun node => { node with item } }

/-- Appends an item. -/
def push (l : Line α) (item : α) : Line α :=
  let id := l.size
  let nodes := l.nodes.push ⟨item, l.last, none⟩
  match l.last with
  | some last =>
    { l with
      nodes := nodes.modify last fun node => { node with next := some id }
      last := some id }
  | none => { nodes, first := some id, last := some id }

/-- Inserts an item before the one with number `before`, or appends it. -/
def insertBefore (l : Line α) (before : Option Nat) (item : α) : Line α :=
  match before with
  | none => l.push item
  | some before =>
    let id := l.size
    let previous := l.previous? before
    let nodes := (l.nodes.push ⟨item, previous, some before⟩).modify before
      fun node => { node with previous := some id }
    match previous with
    | some previous =>
      { l with nodes := nodes.modify previous fun node => { node with next := some id } }
    | none => { l with nodes, first := some id }

/-- The numbers that are reached by at most `steps` links. -/
def follow (l : Line α) : (steps : Nat) → Option Nat → List Nat
  | 0, _ => []
  | _ + 1, none => []
  | steps + 1, some id => id :: l.follow steps (l.next? id)

/-- The numbers of the items in the order of the line. -/
def ids (l : Line α) : List Nat := l.follow l.size l.first

/-- The items in the order of the line. -/
def toList (l : Line α) : List α := l.ids.filterMap l.get?

/-- The line of a list of items. -/
def ofList (items : List α) : Line α := items.foldl push empty

end Line

end Abacus.Parse
