import Abacus.Proofs.Tokens.Lexicon
import Mathlib.Data.List.Induction
import Mathlib.Data.String.Basic

/-!
# What a cursor knows

A cursor that is fed characters one after the other knows at every moment the longest symbol among
them, whether it has run out of symbols or not, and answers whether a symbol goes on.  The answer
looks at one node only: every node of the trie lies on the way to a symbol, so a node with a child
stands for a text that some symbol continues.
-/

namespace Abacus

/-! ## Nodes on the way to a symbol -/

namespace Trie

/-- Whether every node but the root lies on the way to a symbol. -/
def Pruned (t : Trie) : Prop :=
  ∀ text, text ≠ [] → (t.descend? 0 text).isSome → ∃ rest, (t.find? 0 (text ++ rest)).isSome

theorem pruned_empty : empty.Pruned := by
  intro text filled leads
  cases text with
  | nil => exact absurd rfl filled
  | cons c text => cases leads

theorem Pruned.gain {t t' : Trie} {symbol : List Char} {id : Nat} (pruned : t.Pruned)
    (gains : t.Gains symbol id t') : t'.Pruned := by
  intro text filled leads
  rcases (gains.isSome_descend? text).1 leads with ⟨rest, rfl⟩ | known
  · refine ⟨rest, ?_⟩
    rw [gains.find?, if_pos rfl]
    rfl
  · obtain ⟨rest, found⟩ := pruned text filled known
    refine ⟨rest, ?_⟩
    rw [gains.find?]
    split
    · rfl
    · exact found

theorem Pruned.goesOn_iff {t : Trie} (pruned : t.Pruned) {text : List Char} {place : Nat}
    (leads : t.descend? 0 text = some place) :
    t.goesOn place = true ↔ ∃ rest, rest ≠ [] ∧ (t.find? 0 (text ++ rest)).isSome := by
  constructor
  · intro goesOn
    obtain ⟨c, next, child⟩ := exists_child?_of_goesOn goesOn
    have further : t.descend? 0 (text ++ [c]) = some next := by
      rw [descend?_concat, leads, Option.bind_some, child]
    obtain ⟨rest, found⟩ := pruned (text ++ [c]) (by simp) (Option.isSome_of_mem further)
    exact ⟨c :: rest, List.cons_ne_nil _ _, by simpa using found⟩
  · rintro ⟨rest, filled, found⟩
    refine Bool.of_not_eq_false fun ends => ?_
    rw [find?_append leads, not_goesOn ends filled] at found
    cases found

end Trie

namespace Lexicon

/-! ## The symbols and their nodes -/

theorem Numbered.symbols_add {l : Lexicon} (numbered : l.Numbered) {seen : List String}
    (known : l.symbols = (seen.filter (· ≠ "")).eraseDups) (symbol : String) :
    (l.add symbol).symbols = ((seen ++ [symbol]).filter (· ≠ "")).eraseDups ∧
      (l.trie.Pruned → (l.add symbol).trie.Pruned) := by
  have member : symbol ∈ l.symbols ↔ symbol ∈ seen ∧ symbol ≠ "" := by
    rw [known, List.mem_eraseDups, List.mem_filter, decide_eq_true_eq]
  rw [List.filter_append, List.eraseDups_append, ← known]
  by_cases old : symbol = "" ∨ symbol ∈ l.symbols
  · rw [numbered.add_of_mem old]
    refine ⟨?_, id⟩
    by_cases empty : symbol = ""
    · simp [empty]
    · simp [List.removeAll, empty, (member.1 (old.resolve_left empty)).1]
  · rw [not_or] at old
    obtain ⟨trie, added, gains⟩ := add_of_not_found numbered.wired old.1
      (by simpa using mt (numbered.isSome_find?_toList symbol).1 old.2)
    have unseen : symbol ∉ seen := fun inside => old.2 (member.2 ⟨inside, old.1⟩)
    rw [added]
    exact ⟨by simp [List.removeAll, old.1, unseen, List.eraseDups_cons], fun pruned => pruned.gain gains⟩

/-- The symbols of a lexicon are those that were added, without the empty one, each where it came
    first, and no node of its trie is there for nothing. -/
theorem symbols_ofList (symbols : List String) :
    (ofList symbols).symbols = (symbols.filter (· ≠ "")).eraseDups ∧
      (ofList symbols).trie.Pruned := by
  induction symbols using List.reverseRecOn with
  | nil => exact ⟨rfl, Trie.pruned_empty⟩
  | append_singleton symbols symbol inductionHypothesis =>
    have last : ofList (symbols ++ [symbol]) = (ofList symbols).add symbol := List.foldl_append
    obtain ⟨known, pruned⟩ := inductionHypothesis
    obtain ⟨added, keeps⟩ := (numbered_ofList symbols).1.symbols_add known symbol
    rw [last]
    exact ⟨added, keeps pruned⟩

/-! ## Length and number of the longest symbol -/

theorem byteLength_toList (symbol : String) : byteLength symbol.toList = symbol.utf8ByteSize := by
  have lengths (text : List Char) : byteLength text = String.utf8Len text := by
    induction text with
    | nil => rfl
    | cons c text inductionHypothesis =>
      rw [byteLength, inductionHypothesis, String.utf8Len, Nat.add_comm]
  rw [lengths, ← String.utf8ByteSize_ofList, String.ofList_toList]

theorem longest?_eq_map (symbols : List String) (text : List Char) :
    (ofList symbols).longest? text = ((ofList symbols).longestSymbol? text).map fun symbol =>
      (symbol.utf8ByteSize, (ofList symbols).symbols.idxOf symbol) := by
  obtain ⟨numbered, _⟩ := numbered_ofList symbols
  generalize ofList symbols = l at numbered
  obtain ⟨found, longest, follows⟩ := Cursor.longest_follow l.trie 0 0 none text
  rw [longestSymbol?, longest?, start, follows]
  cases found with
  | none => rfl
  | some entry =>
    obtain ⟨symbol, id⟩ := entry
    obtain ⟨_, _, found, _⟩ := longest
    obtain ⟨named, inList, rfl⟩ := Option.map_eq_some_iff.1 ((numbered.find? _ _).1 found)
    have first : l.symbols[l.symbols.idxOf named]? = some named :=
      List.getElem?_idxOf (List.mem_of_getElem? inList)
    have place : l.trie.find? 0 named.toList = some (l.symbols.idxOf named) :=
      (numbered.find? _ _).2 (by rw [first]; rfl)
    rw [found, Option.some.injEq] at place
    simp [symbol?, byteLength_toList, place, first]

/-! ## Feeding a cursor -/

namespace Cursor

/-- Walks along a whole text, whatever the answers are. -/
def walk (k : Cursor) (text : List Char) : Cursor := text.foldl (fun k c => (k.advance c).2) k

theorem advance_trie (k : Cursor) (c : Char) : (k.advance c).2.trie = k.trie := by
  rw [advance]
  split
  · rfl
  · split <;> rfl

theorem advance_place (k : Cursor) (c : Char) :
    (k.advance c).2.place = k.place.bind fun place => k.trie.child? place c := by
  rw [advance]
  cases here : k.place with
  | none => exact here
  | some place => cases child : k.trie.child? place c <;> simp [child]

theorem trie_walk (k : Cursor) (text : List Char) : (k.walk text).trie = k.trie := by
  induction text generalizing k with
  | nil => rfl
  | cons c text inductionHypothesis => exact (inductionHypothesis _).trans (k.advance_trie c)

theorem place_walk (k : Cursor) (text : List Char) :
    (k.walk text).place = k.place.bind fun place => k.trie.descend? place text := by
  induction text generalizing k with
  | nil =>
    change k.place = k.place.bind some
    cases k.place <;> rfl
  | cons c text inductionHypothesis =>
    change ((k.advance c).2.walk text).place = _
    rw [inductionHypothesis, advance_place, advance_trie, Option.bind_assoc]
    rfl

theorem longest_walk_of_ends {k : Cursor}
    (ends : ∀ place, k.place = some place → k.trie.goesOn place = false) (text : List Char) :
    (k.walk text).longest = k.longest := by
  induction text generalizing k with
  | nil => rfl
  | cons c text inductionHypothesis =>
    change ((k.advance c).2.walk text).longest = _
    have lost : (k.advance c).2.place = none ∧ (k.advance c).2.longest = k.longest := by
      cases here : k.place with
      | none => simp [advance, here]
      | some place =>
        simp [advance, here, Trie.child?_eq_none_of_not_goesOn (ends place here) c]
    rw [inductionHypothesis (by simp [lost.1]), lost.2]

/-- A cursor that stops early knows as much as one that walks on. -/
theorem longest_follow_eq_walk (k : Cursor) (text : List Char) :
    (k.follow text).longest = (k.walk text).longest := by
  induction text generalizing k with
  | nil => rfl
  | cons c text inductionHypothesis =>
    change _ = ((k.advance c).2.walk text).longest
    rw [follow]
    cases answer : (k.advance c).1 with
    | true => simpa [answer] using inductionHypothesis (k.advance c).2
    | false =>
      have ends : ∀ place, (k.advance c).2.place = some place →
          (k.advance c).2.trie.goesOn place = false := by
        intro next place
        rw [advance] at answer place
        split at answer
        · simp_all
        · split at answer
          · simp_all
          · simp_all [advance]
      rw [longest_walk_of_ends ends]
      simp [answer]

end Cursor

theorem answer_iff {k : Cursor} (pruned : k.trie.Pruned) {text : List Char}
    (place : k.place = k.trie.descend? 0 text) (c : Char) : (k.advance c).1 = true ↔
      ∃ rest, rest ≠ [] ∧ (k.trie.find? 0 (text ++ [c] ++ rest)).isSome := by
  have further : k.trie.descend? 0 (text ++ [c]) =
      k.place.bind fun place => k.trie.child? place c := by
    rw [Trie.descend?_concat, place]
  have step : (k.advance c).1 = (k.trie.descend? 0 (text ++ [c])).any k.trie.goesOn := by
    rw [further, Cursor.advance]
    cases k.place with
    | none => rfl
    | some place =>
      rw [Option.bind_some]
      cases child : k.trie.child? place c <;> simp [child]
  rw [step]
  cases leads : k.trie.descend? 0 (text ++ [c]) with
  | none =>
    refine iff_of_false Bool.false_ne_true ?_
    rintro ⟨rest, _, found⟩
    rw [Trie.find?, Trie.descend?_append, leads] at found
    cases found
  | some next => exact pruned.goesOn_iff leads

/-- What is done with a cursor: it is fed a character, or taken back to the start. -/
inductive Move where
  | feed (c : Char)
  | reset

def move (l : Lexicon) (k : Cursor) : Move → Cursor
  | .feed c => (k.advance c).2
  | .reset => l.reset k

/-- The cursor behind some moves. -/
def moved (l : Lexicon) (moves : List Move) : Cursor := moves.foldl l.move l.start

/-- The characters that have been fed since the cursor was at the start. -/
def fed (moves : List Move) : List Char :=
  moves.foldl (fun text move => match move with
    | .feed c => text ++ [c]
    | .reset => []) []

theorem fed_concat (moves : List Move) (last : Move) :
    fed (moves ++ [last]) = match last with
      | .feed c => fed moves ++ [c]
      | .reset => [] := List.foldl_append

theorem moved_eq_walk (l : Lexicon) (moves : List Move) :
    l.moved moves = l.start.walk (fed moves) := by
  induction moves using List.reverseRecOn with
  | nil => rfl
  | append_singleton moves last inductionHypothesis =>
    have moves_concat : l.moved (moves ++ [last]) = l.move (l.moved moves) last := List.foldl_append
    rw [moves_concat, inductionHypothesis, fed_concat]
    cases last with
    | feed c => simp [move, Cursor.walk]
    | reset => rfl

theorem fed_feed (text : List Char) : fed (text.map .feed) = text := by
  induction text using List.reverseRecOn with
  | nil => rfl
  | append_singleton text c inductionHypothesis =>
    rw [List.map_append, List.map_singleton, fed_concat, inductionHypothesis]

/-! ## Main result -/

/-- A lexicon recognizes exactly its symbols.  They are those it was made of without the empty one,
    each once and in the order in which it first came.  However a cursor was fed and reset, it knows
    the longest symbol that the characters since then start with, by its length in bytes and its
    number; it answers the next character by whether some symbol goes on behind it; and a search
    that stops at the first refusal finds the same as one that reads the whole text. -/
theorem cursor_recognizes (symbols : List String) :
    let l := ofList symbols
    l.symbols = (symbols.filter (· ≠ "")).eraseDups ∧
    (∀ moves, ∃ found, Finds symbols (fed moves) found ∧
      (l.moved moves).longest = found.map fun symbol =>
        (symbol.utf8ByteSize, l.symbols.idxOf symbol)) ∧
    (∀ moves c, ((l.moved moves).advance c).1 = true ↔
      ∃ symbol ∈ symbols, ∃ rest, rest ≠ [] ∧ symbol.toList = fed moves ++ c :: rest) ∧
    ∀ text, l.longest? text = (l.moved (text.map .feed)).longest := by
  intro l
  obtain ⟨known, pruned⟩ := symbols_ofList symbols
  obtain ⟨numbered, members⟩ := numbered_ofList symbols
  have searched (moves : List Move) : (l.moved moves).longest = l.longest? (fed moves) := by
    rw [moved_eq_walk, longest?, Cursor.longest_follow_eq_walk]
  refine ⟨known, fun moves => ⟨_, finds_longestSymbol? symbols (fed moves), ?_⟩, fun moves c => ?_,
    fun text => ?_⟩
  · rw [searched, longest?_eq_map]
  · have trie : (l.moved moves).trie = (ofList symbols).trie := by
      rw [moved_eq_walk, Cursor.trie_walk]
      rfl
    have place : (l.moved moves).place = (l.moved moves).trie.descend? 0 (fed moves) := by
      rw [trie, moved_eq_walk, Cursor.place_walk]
      rfl
    rw [answer_iff (by rwa [trie]) place, trie]
    simp only [numbered.isSome_find?, members]
    constructor
    · rintro ⟨rest, filled, symbol, ⟨member, _⟩, whole⟩
      exact ⟨symbol, member, rest, filled, by simpa using whole⟩
    · rintro ⟨symbol, member, rest, filled, whole⟩
      refine ⟨rest, filled, symbol, ⟨member, ?_⟩, by simpa using whole⟩
      rintro rfl
      simp at whole
  · rw [searched, fed_feed]

end Lexicon

end Abacus
