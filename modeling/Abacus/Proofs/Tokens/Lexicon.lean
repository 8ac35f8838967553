import Abacus.Proofs.Tokens.Trie
import Mathlib.Tactic.Tauto

/-!
# The longest symbol

The trie of a lexicon finds exactly the symbols that were added, so a cursor that
follows a text and stops early still ends with the longest symbol the text starts
with.
-/

namespace Abacus

namespace Trie

/-- What is left of a text after a longest symbol that it starts with: the symbol and its
    number, or nothing if it starts with none. -/
def Longest (t : Trie) (place : Nat) (text : List Char) : Option (List Char × Nat) → Prop
  | none => ∀ symbol rest, text = symbol ++ rest → symbol ≠ [] → t.find? place symbol = none
  | some (symbol, id) => (∃ rest, text = symbol ++ rest) ∧ symbol ≠ [] ∧
    t.find? place symbol = some id ∧
      ∀ other rest, text = other ++ rest → symbol.length < other.length →
        t.find? place other = none

theorem not_goesOn {t : Trie} {place : Nat} (ends : t.goesOn place = false) {text : List Char}
    (filled : text ≠ []) : t.find? place text = none := by
  cases text with
  | nil => exact absurd rfl filled
  | cons c text => rw [find?_cons, child?_eq_none_of_not_goesOn ends, Option.bind_none]

theorem Longest.cons {t : Trie} {place next : Nat} {c : Char} {text : List Char}
    {found : Option (List Char × Nat)} (child : t.child? place c = some next)
    (longest : t.Longest next text found) :
    t.Longest place (c :: text) ((found.map fun (symbol, id) => (c :: symbol, id)).or
      ((t.accepts? next).map fun id => ([c], id))) := by
  have behind (symbol : List Char) : t.find? place (c :: symbol) = t.find? next symbol := by
    rw [find?_cons, child, Option.bind_some]
  have starts {other rest : List Char} (cut : c :: text = other ++ rest) (filled : other ≠ []) :
      ∃ tail, other = c :: tail ∧ text = tail ++ rest := by
    cases other with
    | nil => exact absurd rfl filled
    | cons d tail =>
      rw [List.cons_append, List.cons.injEq] at cut
      exact ⟨tail, by rw [cut.1], cut.2⟩
  cases found with
  | some entry =>
    obtain ⟨symbol, id⟩ := entry
    obtain ⟨⟨rest, rfl⟩, filled, found, longest⟩ := longest
    refine ⟨⟨rest, rfl⟩, List.cons_ne_nil _ _, (behind _).trans found, fun other rest' cut longer => ?_⟩
    obtain ⟨tail, rfl, inside⟩ := starts cut (List.ne_nil_of_length_pos (by omega))
    rw [behind]
    exact longest tail rest' inside (by simpa using longer)
  | none =>
    cases accepted : t.accepts? next with
    | some id =>
      refine ⟨⟨text, rfl⟩, List.cons_ne_nil _ _, (behind _).trans accepted,
        fun other rest cut longer => ?_⟩
      obtain ⟨tail, rfl, inside⟩ := starts cut (List.ne_nil_of_length_pos (by omega))
      rw [behind]
      exact longest tail rest inside (List.ne_nil_of_length_pos (by simpa using longer))
    | none =>
      intro other rest cut filled
      obtain ⟨tail, rfl, inside⟩ := starts cut filled
      rw [behind]
      cases tail with
      | nil => exact accepted
      | cons d tail => exact longest _ rest inside (List.cons_ne_nil _ _)

end Trie

namespace Lexicon

def byteLength : List Char → Nat
  | [] => 0
  | c :: text => c.utf8Size + byteLength text

/-- A cursor follows a text to the longest symbol it starts with and prefers that to what it has
    passed before, although it stops where no symbol goes on. -/
theorem Cursor.longest_follow (t : Trie) (place walked : Nat) (longest : Option (Nat × Nat))
    (text : List Char) : ∃ found, t.Longest place text found ∧
      (Cursor.follow ⟨t, some place, walked, longest⟩ text).longest =
        (found.map fun (symbol, id) => (walked + byteLength symbol, id)).or longest := by
  induction text generalizing place walked longest with
  | nil =>
    refine ⟨none, fun symbol rest cut filled => ?_, rfl⟩
    exact absurd (List.append_eq_nil_iff.1 cut.symm).1 filled
  | cons c text inductionHypothesis =>
    cases child : t.child? place c with
    | none =>
      refine ⟨none, fun symbol rest cut filled => ?_, ?_⟩
      · cases symbol with
        | nil => exact absurd rfl filled
        | cons d symbol =>
          rw [List.cons_append, List.cons.injEq] at cut
          rw [Trie.find?_cons, ← cut.1, child]
          rfl
      · simp [Cursor.follow, Cursor.advance, child]
    | some next =>
      have first (found : Option (List Char × Nat)) (longest : t.Longest next text found) :=
        Trie.Longest.cons child longest
      -- The cursor stops where no symbol goes on, and then there is none to find behind.
      cases more : t.goesOn next with
      | true =>
        obtain ⟨found, isLongest, follows⟩ := inductionHypothesis next (walked + c.utf8Size)
          (((t.accepts? next).map fun id => (walked + c.utf8Size, id)).or longest)
        refine ⟨_, first found isLongest, ?_⟩
        simp only [Cursor.follow, Cursor.advance, child, more, if_true]
        rw [follows]
        cases found <;> cases t.accepts? next <;> simp [byteLength, Nat.add_assoc]
      | false =>
        refine ⟨_, first none fun symbol rest _ filled => Trie.not_goesOn more filled, ?_⟩
        simp only [Cursor.follow, Cursor.advance, child, more]
        cases t.accepts? next <;> simp [byteLength]

/-! ## The symbols of a lexicon -/

theorem add_of_found {l : Lexicon} {symbol : String} {id : Nat}
    (found : l.trie.find? 0 symbol.toList = some id) : l.add symbol = l := by
  obtain ⟨place, leads, accepted⟩ := Option.bind_eq_some_iff.1 found
  rw [add, Trie.pave_of_descend? leads]
  split
  · rfl
  · simp only [accepted]

theorem add_of_not_found {l : Lexicon} {symbol : String} (wired : l.trie.Wired)
    (filled : symbol ≠ "") (unknown : l.trie.find? 0 symbol.toList = none) :
    ∃ trie, l.add symbol = ⟨l.symbols ++ [symbol], trie⟩ ∧
      l.trie.Gains symbol.toList l.symbols.length trie := by
  refine ⟨_, ?_, wired.gains symbol.toList l.symbols.length⟩
  rw [add, if_neg (by simpa using filled)]
  simp only [wired.accepts?_pave, unknown]

/-- Whether the trie finds exactly the symbols, each by its number. -/
structure Numbered (l : Lexicon) : Prop where
  wired : l.trie.Wired
  find? (text : List Char) (id : Nat) :
    l.trie.find? 0 text = some id ↔ l.symbols[id]?.map String.toList = some text
  filled : "" ∉ l.symbols

theorem numbered_empty : empty.Numbered :=
  ⟨Trie.wired_empty, fun text id => by simp [empty, Trie.find?_empty], List.not_mem_nil⟩

namespace Numbered

variable {l : Lexicon} (numbered : l.Numbered)
include numbered

theorem isSome_find? {text : List Char} :
    (l.trie.find? 0 text).isSome ↔ ∃ symbol ∈ l.symbols, symbol.toList = text := by
  constructor
  · intro found
    obtain ⟨id, found⟩ := Option.isSome_iff_exists.1 found
    obtain ⟨symbol, inList, same⟩ := Option.map_eq_some_iff.1 ((numbered.find? text id).1 found)
    exact ⟨symbol, List.mem_of_getElem? inList, same⟩
  · rintro ⟨symbol, member, rfl⟩
    obtain ⟨id, inList⟩ := List.mem_iff_getElem?.1 member
    rw [(numbered.find? symbol.toList id).2 (by rw [inList]; rfl)]
    rfl

theorem isSome_find?_toList (symbol : String) :
    (l.trie.find? 0 symbol.toList).isSome ↔ symbol ∈ l.symbols := by
  rw [numbered.isSome_find?]
  exact ⟨fun ⟨other, member, same⟩ => String.toList_injective same ▸ member,
    fun member => ⟨symbol, member, rfl⟩⟩

theorem add_of_mem {symbol : String} (known : symbol = "" ∨ symbol ∈ l.symbols) :
    l.add symbol = l := by
  rcases known with rfl | member
  · simp [Lexicon.add]
  · obtain ⟨id, found⟩ :=
      Option.isSome_iff_exists.1 ((numbered.isSome_find?_toList symbol).2 member)
    exact add_of_found found

theorem gain {symbol : String} (filled : symbol ≠ "") (new : symbol ∉ l.symbols) {trie : Trie}
    (gains : l.trie.Gains symbol.toList l.symbols.length trie) :
    Numbered ⟨l.symbols ++ [symbol], trie⟩ := by
  have unknown : l.trie.find? 0 symbol.toList = none := by
    simpa using mt (numbered.isSome_find?_toList symbol).1 new
  refine ⟨gains.wired, fun text id => ?_, by simpa [Ne.symm filled] using numbered.filled⟩
  rw [gains.find?]
  by_cases old : id < l.symbols.length
  · rw [List.getElem?_append_left old, ← numbered.find? text id]
    split
    · rename_i same
      rw [← same, unknown]
      simp [Nat.ne_of_gt old]
    · exact Iff.rfl
  · have unused : l.trie.find? 0 text ≠ some id := fun known => by
      have named := (numbered.find? _ _).1 known
      rw [List.getElem?_eq_none (by omega)] at named
      cases named
    rw [List.getElem?_append_right (by omega)]
    cases offset : id - l.symbols.length with
    | zero =>
      have last : l.symbols.length = id := by omega
      simp [unused, last]
    | succ k =>
      have other : l.symbols.length ≠ id := by omega
      split <;> simp [unused, other]

theorem add (symbol : String) :
    (l.add symbol).Numbered ∧ ∀ other, other ∈ (l.add symbol).symbols ↔
      other ∈ l.symbols ∨ other = symbol ∧ symbol ≠ "" := by
  by_cases known : symbol = "" ∨ symbol ∈ l.symbols
  · rw [numbered.add_of_mem known]
    refine ⟨numbered, fun other => ⟨.inl, ?_⟩⟩
    rintro (member | ⟨rfl, filled⟩)
    · exact member
    · exact known.resolve_left filled
  · rw [not_or] at known
    obtain ⟨trie, added, gains⟩ := add_of_not_found numbered.wired known.1
      (by simpa using mt (numbered.isSome_find?_toList symbol).1 known.2)
    rw [added]
    exact ⟨numbered.gain known.1 known.2 gains, fun other => by simp [known.1]⟩

end Numbered

theorem numbered_ofList (symbols : List String) : (ofList symbols).Numbered ∧
    ∀ symbol, symbol ∈ (ofList symbols).symbols ↔ symbol ∈ symbols ∧ symbol ≠ "" := by
  have whole (l : Lexicon) (numbered : l.Numbered) : (symbols.foldl add l).Numbered ∧
      ∀ symbol, symbol ∈ (symbols.foldl add l).symbols ↔
        symbol ∈ l.symbols ∨ symbol ∈ symbols ∧ symbol ≠ "" := by
    induction symbols generalizing l with
    | nil => exact ⟨numbered, fun symbol => by simp⟩
    | cons first rest inductionHypothesis =>
      obtain ⟨next, added⟩ := numbered.add first
      obtain ⟨last, more⟩ := inductionHypothesis (l.add first) next
      refine ⟨last, fun symbol => ?_⟩
      rw [List.foldl_cons, more, added, List.mem_cons]
      by_cases same : symbol = first
      · subst same
        tauto
      · tauto
  obtain ⟨numbered, members⟩ := whole empty numbered_empty
  exact ⟨numbered, fun symbol => (members symbol).trans (by simp [empty])⟩

/-- What is found where a text starts: the longest of some symbols, or nothing if none but the empty
    one stands there. -/
def Finds (symbols : List String) (text : List Char) : Option String → Prop
  | some symbol => symbol ∈ symbols ∧ symbol ≠ "" ∧ (∃ rest, text = symbol.toList ++ rest) ∧
    ∀ other ∈ symbols, ∀ rest, text = other.toList ++ rest →
      other.toList.length ≤ symbol.toList.length
  | none => ∀ symbol ∈ symbols, ∀ rest, text = symbol.toList ++ rest → symbol = ""

theorem Finds.unique {symbols : List String} {text : List Char} {found other : Option String}
    (first : Finds symbols text found) (second : Finds symbols text other) : found = other := by
  cases found with
  | none =>
    cases other with
    | none => rfl
    | some symbol =>
      obtain ⟨member, filled, ⟨rest, starts⟩, _⟩ := second
      exact absurd (first symbol member rest starts) filled
  | some symbol =>
    obtain ⟨member, filled, ⟨rest, starts⟩, longest⟩ := first
    cases other with
    | none => exact absurd (second symbol member rest starts) filled
    | some symbol' =>
      obtain ⟨member', _, ⟨rest', starts'⟩, longest'⟩ := second
      have length := Nat.le_antisymm (longest' symbol member rest starts)
        (longest symbol' member' rest' starts')
      have equal := List.append_inj_left (starts.symm.trans starts') length
      rw [String.toList_injective equal]

theorem finds_longestSymbol? (symbols : List String) (text : List Char) :
    Finds symbols text ((ofList symbols).longestSymbol? text) := by
  obtain ⟨numbered, members⟩ := numbered_ofList symbols
  obtain ⟨found, longest, follows⟩ :=
    Cursor.longest_follow (ofList symbols).trie 0 0 none text
  have numberOf {symbol : String} (member : symbol ∈ symbols) (filled : symbol ≠ "") :
      ∃ id, (ofList symbols).trie.find? 0 symbol.toList = some id := by
    obtain ⟨id, inList⟩ := List.mem_iff_getElem?.1 ((members symbol).2 ⟨member, filled⟩)
    exact ⟨id, (numbered.find? _ _).2 (by rw [inList]; rfl)⟩
  rw [longestSymbol?, longest?, start, follows]
  cases found with
  | none =>
    intro symbol member rest starts
    refine Decidable.byContradiction fun filled => ?_
    obtain ⟨id, found⟩ := numberOf member filled
    have unfound := longest symbol.toList rest starts (by simpa using filled)
    cases found.symm.trans unfound
  | some entry =>
    obtain ⟨symbol, id⟩ := entry
    obtain ⟨⟨rest, starts⟩, filled, found, longest⟩ := longest
    obtain ⟨named, inList, rfl⟩ := Option.map_eq_some_iff.1 ((numbered.find? _ _).1 found)
    have member := (members named).1 (List.mem_of_getElem? inList)
    simp only [Option.map_some, Option.or_none, Option.bind_some, symbol?, inList]
    refine ⟨member.1, member.2, ⟨rest, starts⟩, fun other member' rest' starts' => ?_⟩
    refine Nat.le_of_not_lt fun longer => ?_
    have otherFilled : other ≠ "" := by
      rintro rfl
      exact Nat.not_lt_zero _ longer
    obtain ⟨id', found'⟩ := numberOf member' otherFilled
    cases found'.symm.trans (longest other.toList rest' starts' longer)

theorem longestSymbol?_eq_iff {symbols : List String} {text : List Char} {found : Option String} :
    (ofList symbols).longestSymbol? text = found ↔ Finds symbols text found := by
  constructor
  · rintro rfl
    exact finds_longestSymbol? symbols text
  · exact (finds_longestSymbol? symbols text).unique

end Lexicon

end Abacus
