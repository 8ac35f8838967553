import Abacus.Lexicon
import Mathlib.Data.List.Induction

/-!
# Tries in an array

The nodes of a trie refer to each other by their places.  Every node but the first is referred to
once, by a node in front of it, so each node has a text of its own.  Attaching a node therefore
adds one text to those that lead anywhere, and accepting a symbol concerns no other text.
-/

namespace Abacus.Trie

variable {t : Trie}

/-! ## Where texts lead -/

def descend? (t : Trie) (place : Nat) : List Char → Option Nat
  | [] => some place
  | c :: text => (t.child? place c).bind fun next => t.descend? next text

def find? (t : Trie) (place : Nat) (text : List Char) : Option Nat :=
  (t.descend? place text).bind t.accepts?

theorem find?_cons (t : Trie) (place : Nat) (c : Char) (text : List Char) :
    t.find? place (c :: text) = (t.child? place c).bind fun next => t.find? next text := by
  simp only [find?, descend?]
  cases t.child? place c <;> rfl

theorem descend?_append (t : Trie) (place : Nat) (text rest : List Char) :
    t.descend? place (text ++ rest) =
      (t.descend? place text).bind fun next => t.descend? next rest := by
  induction text generalizing place with
  | nil => rfl
  | cons c text inductionHypothesis =>
    rw [List.cons_append, descend?, descend?]
    cases t.child? place c with
    | none => rfl
    | some next => exact inductionHypothesis next

theorem descend?_concat (t : Trie) (place : Nat) (text : List Char) (c : Char) :
    t.descend? place (text ++ [c]) =
      (t.descend? place text).bind fun next => t.child? next c := by
  rw [descend?_append]
  congr 1
  funext next
  rw [descend?]
  cases t.child? next c <;> rfl

theorem isSome_descend?_of_prefix {place : Nat} {text part : List Char} (starts : part <+: text)
    (leads : (t.descend? place text).isSome) : (t.descend? place part).isSome := by
  obtain ⟨rest, rfl⟩ := starts
  rw [descend?_append] at leads
  exact Option.isSome_of_isSome_bind leads

theorem find?_append {place next : Nat} {text : List Char}
    (leads : t.descend? place text = some next) (rest : List Char) :
    t.find? place (text ++ rest) = t.find? next rest := by
  rw [find?, descend?_append, leads]
  rfl

theorem child?_eq_none_of_not_goesOn {place : Nat} (ends : t.goesOn place = false) (c : Char) :
    t.child? place c = none := by
  rw [goesOn] at ends
  rw [child?]
  cases found : t.nodes[place]? with
  | none => rfl
  | some node =>
    have nothing : node.children.entries = [] := by simpa [found] using ends
    rw [Option.bind_some, Table.get?, nothing, Table.lookupIn]

theorem exists_child?_of_goesOn {place : Nat} (goesOn : t.goesOn place = true) :
    ∃ c next, t.child? place c = some next := by
  rw [Trie.goesOn] at goesOn
  cases found : t.nodes[place]? with
  | none => simp [found] at goesOn
  | some node =>
    cases entries : node.children.entries with
    | nil => simp [found, entries] at goesOn
    | cons entry others =>
      refine ⟨entry.1, entry.2, ?_⟩
      rw [child?, found, Option.bind_some, Table.get?, entries, Table.lookupIn, if_pos rfl]

/-! ## Nodes with one text -/

/-- Whether every node but the first is referred to at most once, and by a node in front of it. -/
structure Wired (t : Trie) : Prop where
  rooted : 0 < t.nodes.size
  later {place next : Nat} {c : Char} : t.child? place c = some next →
    place < next ∧ next < t.nodes.size
  once {place place' next : Nat} {c c' : Char} : t.child? place c = some next →
    t.child? place' c' = some next → place = place' ∧ c = c'

theorem child?_empty (place : Nat) (c : Char) : empty.child? place c = none := by
  cases place <;> rfl

theorem wired_empty : empty.Wired where
  rooted := Nat.zero_lt_one
  later child := by
    rw [child?_empty] at child
    cases child
  once child := by
    rw [child?_empty] at child
    cases child

theorem find?_empty (text : List Char) : empty.find? 0 text = none := by
  cases text <;> rfl

namespace Wired

variable (wired : t.Wired)
include wired

theorem lt_size {text : List Char} {place : Nat} (leads : t.descend? 0 text = some place) :
    place < t.nodes.size := by
  induction text using List.reverseRecOn with
  | nil =>
    cases leads
    exact wired.rooted
  | append_singleton text c _ =>
    rw [descend?_concat] at leads
    obtain ⟨parent, _, child⟩ := Option.bind_eq_some_iff.1 leads
    exact (wired.later child).2

/-- Different texts lead to different nodes. -/
theorem text_unique {text text' : List Char} {place : Nat} (leads : t.descend? 0 text = some place)
    (leads' : t.descend? 0 text' = some place) : text = text' := by
  induction text using List.reverseRecOn generalizing text' place with
  | nil =>
    cases leads
    cases text' using List.reverseRecOn with
    | nil => rfl
    | append_singleton text' c =>
      rw [descend?_concat] at leads'
      obtain ⟨parent, _, child⟩ := Option.bind_eq_some_iff.1 leads'
      exact absurd (wired.later child).1 (Nat.not_lt_zero _)
  | append_singleton text c inductionHypothesis =>
    rw [descend?_concat] at leads
    obtain ⟨parent, before, child⟩ := Option.bind_eq_some_iff.1 leads
    cases text' using List.reverseRecOn with
    | nil =>
      cases leads'
      exact absurd (wired.later child).1 (Nat.not_lt_zero _)
    | append_singleton text' c' =>
      rw [descend?_concat] at leads'
      obtain ⟨parent', before', child'⟩ := Option.bind_eq_some_iff.1 leads'
      obtain ⟨rfl, rfl⟩ := wired.once child child'
      rw [inductionHypothesis before before']

end Wired

/-! ## Attaching a node -/

section

variable {place : Nat} {c : Char}

theorem child?_attach (inside : place < t.nodes.size) (i : Nat) (d : Char) :
    (t.attach place c).child? i d =
      if i = place ∧ d = c then some t.nodes.size else t.child? i d := by
  rw [child?, attach, Array.getElem?_modify, Array.getElem?_push]
  by_cases new : i = t.nodes.size
  · have other : ¬ (i = place ∧ d = c) := fun same => by omega
    rw [if_neg (by omega), if_pos new, if_neg other, child?, Array.getElem?_eq_none (by omega)]
    rfl
  · rw [if_neg new, child?]
    by_cases same : i = place
    · subst same
      rw [if_pos rfl, Array.getElem?_eq_getElem inside, Option.map_some, Option.bind_some,
        Table.get?_insert]
      simp [eq_comm]
    · rw [if_neg (Ne.symm same), if_neg fun both => same both.1]

theorem accepts?_attach (i : Nat) : (t.attach place c).accepts? i = t.accepts? i := by
  rw [accepts?, attach, Array.getElem?_modify, Array.getElem?_push]
  by_cases new : i = t.nodes.size
  · rw [if_pos new, accepts?, Array.getElem?_eq_none (by omega)]
    split <;> rfl
  · rw [if_neg new, accepts?]
    split <;> cases t.nodes[i]? <;> rfl

theorem size_attach : (t.attach place c).nodes.size = t.nodes.size + 1 := by
  simp [attach]

variable (wired : t.Wired)
include wired

theorem Wired.attach (inside : place < t.nodes.size) : (t.attach place c).Wired where
  rooted := by
    rw [size_attach]
    exact Nat.succ_pos _
  later child := by
    rw [child?_attach inside] at child
    rw [size_attach]
    split at child
    · cases child
      omega
    · have := wired.later child
      omega
  once child child' := by
    rw [child?_attach inside] at child child'
    split at child
    · cases child
      split at child'
      · rename_i same same'
        exact ⟨same.1.trans same'.1.symm, same.2.trans same'.2.symm⟩
      · exact absurd (wired.later child').2 (Nat.lt_irrefl _)
    · split at child'
      · cases child'
        exact absurd (wired.later child).2 (Nat.lt_irrefl _)
      · exact wired.once child child'

variable {way : List Char} (leads : t.descend? 0 way = some place) (free : t.child? place c = none)
include leads free

/-- A new node is where one more text leads. -/
theorem descend?_attach (text : List Char) : (t.attach place c).descend? 0 text =
    if text = way ++ [c] then some t.nodes.size else t.descend? 0 text := by
  have inside := wired.lt_size leads
  induction text using List.reverseRecOn with
  | nil => simp [descend?]
  | append_singleton text d inductionHypothesis =>
    rw [descend?_concat, inductionHypothesis]
    by_cases behind : text = way ++ [c]
    · have nothing (i : Nat) (e : Char) (outside : t.nodes.size ≤ i) : t.child? i e = none := by
        rw [child?, Array.getElem?_eq_none outside, Option.bind_none]
      rw [if_pos behind, Option.bind_some, child?_attach inside, if_neg fun same => by omega,
        nothing _ _ Nat.le.refl, if_neg (by simp [behind]), descend?_concat, behind,
        descend?_concat, leads, Option.bind_some, free, Option.bind_none]
    · rw [if_neg behind, descend?_concat]
      cases found : t.descend? 0 text with
      | none =>
        have other : text ≠ way := fun same => by
          rw [same, leads] at found
          cases found
        simp [other]
      | some i =>
        have same : i = place ↔ text = way := by
          constructor
          · rintro rfl
            exact wired.text_unique found leads
          · rintro rfl
            exact Option.some.inj (found.symm.trans leads)
        rw [Option.bind_some, child?_attach inside]
        simp [same]

theorem find?_attach (text : List Char) : (t.attach place c).find? 0 text = t.find? 0 text := by
  rw [find?, descend?_attach wired leads free, find?]
  split
  · rename_i same
    rw [Option.bind_some, accepts?_attach, accepts?, Array.getElem?_eq_none Nat.le.refl, same,
      descend?_concat, leads, Option.bind_some, free]
    rfl
  · congr 1
    funext i
    exact accepts?_attach i

end

/-! ## Paving a text -/

/-- What paving makes of a trie: a text and its beginnings lead somewhere, and all symbols are
    found as before. -/
structure Paved (t : Trie) (text : List Char) (paved : Trie × Nat) : Prop where
  wired : paved.1.Wired
  leads : paved.1.descend? 0 text = some paved.2
  find? (other : List Char) : paved.1.find? 0 other = t.find? 0 other
  isSome_descend? (other : List Char) :
    (paved.1.descend? 0 other).isSome ↔ other <+: text ∨ (t.descend? 0 other).isSome

theorem Wired.paved (wired : t.Wired) (way : List Char) {place : Nat}
    (leads : t.descend? 0 way = some place) (rest : List Char) :
    t.Paved (way ++ rest) (t.pave place rest) := by
  induction rest generalizing t way place with
  | nil =>
    rw [List.append_nil]
    refine ⟨wired, leads, fun _ => rfl, fun other => ⟨.inr, fun either => ?_⟩⟩
    rcases either with starts | led
    · exact isSome_descend?_of_prefix starts (Option.isSome_of_mem leads)
    · exact led
  | cons c rest inductionHypothesis =>
    rw [List.append_cons, pave]
    cases child : t.child? place c with
    | some next =>
      exact inductionHypothesis wired (way ++ [c])
        (by rw [descend?_concat, leads, Option.bind_some, child])
    | none =>
      have new (text : List Char) := descend?_attach wired leads child text
      have paved := inductionHypothesis (wired.attach (wired.lt_size leads)) (way ++ [c])
        (by rw [new, if_pos rfl])
      refine ⟨paved.wired, paved.leads, fun other => ?_, fun other => ?_⟩
      · rw [paved.find?, find?_attach wired leads child]
      · rw [paved.isSome_descend?, new]
        split
        · rename_i same
          simp [same]
        · exact Iff.rfl

theorem pave_of_descend? {place next : Nat} {text : List Char}
    (leads : t.descend? place text = some next) : t.pave place text = (t, next) := by
  induction text generalizing place with
  | nil =>
    cases leads
    rfl
  | cons c text inductionHypothesis =>
    rw [descend?] at leads
    obtain ⟨child, found, leads⟩ := Option.bind_eq_some_iff.1 leads
    rw [pave, found]
    exact inductionHypothesis leads

/-! ## Accepting a symbol -/

section

variable {place id : Nat}

theorem child?_accept (i : Nat) (c : Char) : (t.accept place id).child? i c = t.child? i c := by
  rw [child?, accept, Array.getElem?_modify, child?]
  split
  · cases t.nodes[i]? <;> rfl
  · rfl

theorem descend?_accept (i : Nat) (text : List Char) :
    (t.accept place id).descend? i text = t.descend? i text := by
  induction text generalizing i with
  | nil => rfl
  | cons c text inductionHypothesis => simp only [descend?, child?_accept, inductionHypothesis]

theorem Wired.accept (wired : t.Wired) : (t.accept place id).Wired where
  rooted := by
    rw [Trie.accept, Array.size_modify]
    exact wired.rooted
  later child := by
    rw [child?_accept] at child
    rw [Trie.accept, Array.size_modify]
    exact wired.later child
  once child child' := by
    rw [child?_accept] at child child'
    exact wired.once child child'

theorem find?_accept (wired : t.Wired) {symbol : List Char}
    (leads : t.descend? 0 symbol = some place) (text : List Char) :
    (t.accept place id).find? 0 text = if symbol = text then some id else t.find? 0 text := by
  have inside := wired.lt_size leads
  have accepts (i : Nat) : (t.accept place id).accepts? i =
      if i = place then some id else t.accepts? i := by
    rw [accepts?, Trie.accept, Array.getElem?_modify, accepts?]
    by_cases same : i = place
    · rw [if_pos same.symm, if_pos same, same, Array.getElem?_eq_getElem inside]
      rfl
    · rw [if_neg (Ne.symm same), if_neg same]
  rw [find?, descend?_accept, find?]
  cases found : t.descend? 0 text with
  | none =>
    rw [if_neg fun same => by rw [← same, leads] at found; cases found]
    rfl
  | some i =>
    rw [Option.bind_some, accepts, Option.bind_some]
    by_cases same : i = place
    · subst same
      rw [if_pos rfl, if_pos (wired.text_unique leads found)]
    · rw [if_neg same, if_neg fun equal => same ?_]
      rw [← equal, leads] at found
      exact (Option.some.inj found).symm

end

/-- What one more symbol makes of a trie. -/
structure Gains (t : Trie) (symbol : List Char) (id : Nat) (t' : Trie) : Prop where
  wired : t'.Wired
  find? (text : List Char) :
    t'.find? 0 text = if symbol = text then some id else t.find? 0 text
  isSome_descend? (text : List Char) :
    (t'.descend? 0 text).isSome ↔ text <+: symbol ∨ (t.descend? 0 text).isSome

theorem Wired.gains (wired : t.Wired) (symbol : List Char) (id : Nat) :
    t.Gains symbol id ((t.pave 0 symbol).1.accept (t.pave 0 symbol).2 id) := by
  have paved : t.Paved symbol (t.pave 0 symbol) := wired.paved [] rfl symbol
  refine ⟨paved.wired.accept, fun text => ?_, fun text => ?_⟩
  · rw [find?_accept paved.wired paved.leads, paved.find?]
  · rw [descend?_accept, paved.isSome_descend?]

theorem Wired.accepts?_pave (wired : t.Wired) (symbol : List Char) :
    (t.pave 0 symbol).1.accepts? (t.pave 0 symbol).2 = t.find? 0 symbol := by
  have paved : t.Paved symbol (t.pave 0 symbol) := wired.paved [] rfl symbol
  rw [← paved.find?, Trie.find?, paved.leads, Option.bind_some]

end Abacus.Trie
