import Abacus.Table

/-!
# Lexicons

A lexicon is a set of symbols that is searched for the longest one a text starts
with.  Its symbols share one trie, whose nodes lie in an array: a node stands for
a text, accepts the symbol that is this text, and refers to a later node for every
character by which a symbol goes on.  A cursor walks the trie character by
character and remembers the longest symbol it has passed.
-/

namespace Abacus

/-- A node of a trie: the number of the symbol that ends here, and the places of the
    nodes one character further. -/
structure Trie.Node where
  accepts : Option Nat := none
  children : Table Char Nat := ∅

/-- The nodes of a trie.  The first one stands for the empty text. -/
structure Trie where
  nodes : Array Trie.Node

namespace Trie

/-- The trie that accepts nothing. -/
def empty : Trie := ⟨#[{}]⟩

/-- The place of the node one character further. -/
def child? (t : Trie) (place : Nat) (c : Char) : Option Nat :=
  t.nodes[place]?.bind fun node => node.children.get? c

/-- The number of the symbol that ends at a place. -/
def accepts? (t : Trie) (place : Nat) : Option Nat := t.nodes[place]?.bind Node.accepts

/-- Whether some symbol goes on from a place. -/
def goesOn (t : Trie) (place : Nat) : Bool :=
  t.nodes[place]?.any fun node => !node.children.entries.isEmpty

/-- Puts a new node behind all others and lets the one at `place` refer to it. -/
def attach (t : Trie) (place : Nat) (c : Char) : Trie :=
  ⟨(t.nodes.push {}).modify place fun node =>
    { node with children := node.children.insert c t.nodes.size }⟩

/-- Walks along a text and attaches the nodes that are missing. -/
def pave (t : Trie) (place : Nat) : List Char → Trie × Nat
  | [] => (t, place)
  | c :: text =>
    match t.child? place c with
    | some next => t.pave next text
    | none => (t.attach place c).pave t.nodes.size text

def accept (t : Trie) (place id : Nat) : Trie :=
  ⟨t.nodes.modify place fun node => { node with accepts := some id }⟩

end Trie

/-- A set of symbols in the order in which they were added. -/
structure Lexicon where
  /-- The symbols; each is numbered by its place. -/
  symbols : List String
  trie : Trie

namespace Lexicon

def empty : Lexicon := ⟨[], .empty⟩

instance : Inhabited Lexicon := ⟨empty⟩

/-- Adds a symbol.  The empty text and a symbol that is there already change
    nothing. -/
def add (l : Lexicon) (symbol : String) : Lexicon :=
  if symbol.isEmpty then l
  else
    let (trie, place) := l.trie.pave 0 symbol.toList
    match trie.accepts? place with
    | some _ => { l with trie }
    | none => ⟨l.symbols ++ [symbol], trie.accept place l.symbols.length⟩

/-- The lexicon of a list of symbols. -/
def ofList (symbols : List String) : Lexicon := symbols.foldl add empty

/-- A position in the trie of a lexicon. -/
structure Cursor where
  trie : Trie
  /-- The place of the text walked so far, or `none` once no symbol starts with
      that text. -/
  place : Option Nat := some 0
  /-- The length in bytes of the walked text that starts a symbol. -/
  walked : Nat := 0
  /-- Length in bytes and number of the longest symbol passed. -/
  longest : Option (Nat × Nat) := none

namespace Cursor

/-- Walks on by one character.  Answers whether a longer symbol is still
    possible. -/
def advance (k : Cursor) (c : Char) : Bool × Cursor :=
  match k.place with
  | none => (false, k)
  | some place =>
    match k.trie.child? place c with
    | none => (false, { k with place := none })
    | some next =>
      let walked := k.walked + c.utf8Size
      let longest := ((k.trie.accepts? next).map fun id => (walked, id)).or k.longest
      (k.trie.goesOn next, { k with place := some next, walked, longest })

/-- Walks along a text for as long as a longer symbol is possible. -/
def follow (k : Cursor) : List Char → Cursor
  | [] => k
  | c :: text =>
    let (more, next) := k.advance c
    if more then next.follow text else next

end Cursor

/-- The cursor before the first character. -/
def start (l : Lexicon) : Cursor := { trie := l.trie }

/-- Takes a cursor back to before the first character. -/
def reset (l : Lexicon) (k : Cursor) : Cursor :=
  { k with trie := l.trie, place := some 0, walked := 0, longest := none }

/-- Length in bytes and number of the longest symbol that a text starts with. -/
def longest? (l : Lexicon) (text : List Char) : Option (Nat × Nat) :=
  (l.start.follow text).longest

def symbol? (l : Lexicon) (id : Nat) : Option String := l.symbols[id]?

/-- The longest symbol that a text starts with. -/
def longestSymbol? (l : Lexicon) (text : List Char) : Option String :=
  (l.longest? text).bind fun (_, id) => l.symbol? id

end Lexicon

end Abacus
