import Abacus.Proofs.Text.Squeezed
import Abacus.Proofs.Tokens.Scan

/-!
# Tokens of squeezed texts

A tokenizer none of whose symbols has white space in it cuts a squeezed text where it cuts the
text itself: each token of the one is a squeezed token of the other.
-/

namespace Abacus.Tokenizer

open Text

/-- Configurations whose symbols have no white space in them and that drop what white space they
    cut at. -/
structure Config.Squeezes (c : Config) : Prop where
  filled : ∀ s ∈ c.symbols, ∀ x ∈ s.toList, isBlank x = false
  drops : c.breaksOnBlank = true → c.trims = true ∧ c.keepsEmpty = false

/-! ## States -/

namespace State

def squeezed (s : State) : State :=
  { s with finished := s.finished.map Text.squeezed, reading := Text.squeezed s.reading }

/-- What the token being read ends with after white space, where there is a `gap`, and after other
    characters.  White space that cuts leaves no token being read. -/
def Follows (c : Config) (gap : Bool) (s : State) : Prop :=
  if gap && c.breaksOnBlank && s.cutsHere then s.reading = []
  else s.reading.head?.any isBlank = gap

variable {c : Config} {gap : Bool} {x : Char} {text : List Char}

theorem follows_of_head? (c : Config) {s : State} (first : s.reading.head?.any isBlank = false) :
    s.Follows c false := by
  simpa [Follows] using first

@[simp] theorem cutsHere_squeezed (s : State) : s.squeezed.cutsHere = s.cutsHere := rfl

theorem squeezed_emit (c : Config) (s : State) (token : List Char) :
    (s.emit c token).squeezed = s.squeezed.emit c (Text.squeezed token) := by
  have trimmed : (if c.trims then trim (Text.squeezed token) else Text.squeezed token) =
      Text.squeezed (if c.trims then trim token else token) := by
    cases c.trims
    · rfl
    · exact trim_squeezed token
  rw [emit, emit, trimmed, isEmpty_squeezed]
  generalize (if c.trims then trim token else token) = kept
  cases kept.isEmpty && !c.keepsEmpty <;> rfl

theorem squeezed_close (c : Config) (s : State) : (s.close c).squeezed = s.squeezed.close c := by
  have emits := squeezed_emit c s s.reading.reverse
  rw [squeezed_reverse] at emits
  change { (s.emit c s.reading.reverse).squeezed with reading := [] } = _
  rw [emits]
  rfl

theorem cutsHere_close (c : Config) (s : State) : (s.close c).cutsHere = s.cutsHere := by
  unfold close emit
  dsimp only
  generalize (if c.trims then trim s.reading.reverse else s.reading.reverse) = kept
  cases kept.isEmpty && !c.keepsEmpty <;> rfl

theorem squeezed_push (s : State) (filled : ∀ x ∈ text, isBlank x = false) :
    (s.push text).squeezed = s.squeezed.push text := by
  have reversed : ∀ x ∈ text.reverse, isBlank x = false := by simpa using filled
  simp only [squeezed, push, squeezed_append_of_filled reversed]

theorem squeezed_cut (c : Config) (s : State) (filled : ∀ x ∈ text, isBlank x = false)
    (sets : Membership) : (s.cut c text sets).squeezed = s.squeezed.cut c text sets := by
  unfold cut
  split
  · rw [← squeezed_close]
    simp [squeezed, squeezed_of_filled filled]
  · split
    · exact squeezed_close c s
    · split
      · rw [squeezed_push _ filled, squeezed_close]
      · split
        · rw [squeezed_close, squeezed_push _ filled]
        · exact squeezed_push s filled

theorem squeezed_close_if (c : Config) (s : State) (breaks : Bool) :
    (if s.cutsHere && breaks then s.close c else s).squeezed =
      if s.squeezed.cutsHere && breaks then s.squeezed.close c else s.squeezed := by
  rw [cutsHere_squeezed]
  split
  · exact squeezed_close c s
  · rfl

theorem squeezed_enter (c : Config) (s : State) (filled : ∀ x ∈ text, isBlank x = false)
    (sets : Membership) (pair : Nat) :
    (s.enter c text sets pair).squeezed = s.squeezed.enter c text sets pair := by
  unfold enter
  rw [squeezed_push _ filled, ← squeezed_close_if]
  rfl

theorem squeezed_leave (c : Config) (s : State) (filled : ∀ x ∈ text, isBlank x = false)
    (sets : Membership) (pair : Nat) :
    (s.leave c text sets pair).squeezed = s.squeezed.leave c text sets pair := by
  unfold leave
  rw [squeezed_close_if, squeezed_push _ filled]
  rfl

theorem squeezed_readSymbol (c : Config) (s : State) (filled : ∀ x ∈ text, isBlank x = false)
    (sets : Membership) :
    (s.readSymbol c text sets).squeezed = s.squeezed.readSymbol c text sets := by
  unfold readSymbol
  rw [cutsHere_squeezed]
  split
  · exact squeezed_push _ filled
  · change _ = if s.quoted then _ else _
    split
    · exact squeezed_push s filled
    · cases sets.opens with
      | some pair => exact squeezed_enter c s filled sets pair
      | none =>
        cases sets.closes with
        | some pair => exact squeezed_leave c s filled sets pair
        | none =>
          dsimp only
          split
          · exact squeezed_cut c s filled sets
          · exact squeezed_push s filled

/-- The white space of one run is squeezed into the first of it. -/
theorem squeezed_push_blank (blank : isBlank x = true) (s : State)
    (first : s.reading.head?.any isBlank = gap) :
    (s.push [x]).squeezed = if gap then s.squeezed else s.squeezed.push [' '] := by
  have reads : Text.squeezed (x :: s.reading) =
      if gap then Text.squeezed s.reading else ' ' :: Text.squeezed s.reading := by
    subst first
    rw [squeezed_blank blank]
    cases s.reading with
    | nil => rfl
    | cons y reading => cases next : isBlank y <;> simp [squeezedFrom, next]
  cases gap <;> simp_all [squeezed, push]

theorem head?_push (s : State) (filled : ∀ x ∈ text, isBlank x = false) (notEmpty : text ≠ []) :
    (s.push text).reading.head?.any isBlank = false := by
  obtain ⟨front, x, rfl⟩ := List.eq_nil_or_concat text |>.resolve_left notEmpty
  simpa [push] using filled x (by simp)

theorem head?_cut (c : Config) (s : State) (filled : ∀ x ∈ text, isBlank x = false)
    (notEmpty : text ≠ []) (sets : Membership) :
    (s.cut c text sets).reading.head?.any isBlank = false := by
  unfold cut
  split
  · rfl
  · split
    · rfl
    · split
      · exact head?_push _ filled notEmpty
      · split
        · rfl
        · exact head?_push s filled notEmpty

theorem head?_readSymbol (c : Config) (s : State) (filled : ∀ x ∈ text, isBlank x = false)
    (notEmpty : text ≠ []) (sets : Membership) :
    (s.readSymbol c text sets).reading.head?.any isBlank = false := by
  have pushed (s : State) := head?_push s filled notEmpty
  unfold readSymbol
  split
  · exact pushed _
  · split
    · exact pushed s
    · cases sets.opens with
      | some pair => exact pushed _
      | none =>
        cases sets.closes with
        | some pair =>
          dsimp only [leave]
          split
          · rfl
          · exact pushed _
        | none =>
          dsimp only
          split
          · exact head?_cut c s filled notEmpty sets
          · exact pushed s

theorem readPlain_cuts (breaks : c.breaksOnBlank = true)
    (drops : c.trims = true ∧ c.keepsEmpty = false) (blank : isBlank x = true) (s : State)
    (cuts : s.cutsHere = true) : s.readPlain c x = s.close c := by
  have trimmed : trim [x] = [] := by simp [trim, trimStart, trimEnd, blank]
  simp [readPlain, breaks, blank, cuts, emit, drops.1, drops.2, trimmed]

theorem readPlain_pushes (s : State)
    (plain : (c.breaksOnBlank && isBlank x && s.cutsHere) = false) :
    s.readPlain c x = s.push [x] := by
  simp [readPlain, plain]

theorem close_of_reading_nil (drops : c.trims = true ∧ c.keepsEmpty = false) (s : State)
    (empty : s.reading = []) : s.close c = s := by
  obtain ⟨finished, reading, nesting, quoted⟩ := s
  cases empty
  simp [close, emit, drops.1, drops.2]

end State

/-! ## Runs -/

section

variable {t : Tokenizer} (squeezes : t.config.Squeezes)

include squeezes

theorem longestSymbol?_squeezed (text : List Char) :
    t.lexicon.longestSymbol? (squeezed text) = t.lexicon.longestSymbol? text := by
  have found : Lexicon.Finds t.config.symbols text (t.lexicon.longestSymbol? text) :=
    (longestSymbol?_eq_iff t).1 rfl
  rw [longestSymbol?_eq_iff]
  generalize t.lexicon.longestSymbol? text = symbol at found ⊢
  cases symbol with
  | none =>
    intro other member rest starts
    obtain ⟨rest', starts'⟩ :=
      (startsWith_squeezed (squeezes.filled other member) text).1 ⟨rest, starts⟩
    exact found other member rest' starts'
  | some symbol =>
    obtain ⟨member, notEmpty, starts, longest⟩ := found
    refine ⟨member, notEmpty,
      (startsWith_squeezed (squeezes.filled symbol member) text).2 starts,
      fun other member rest starts => ?_⟩
    obtain ⟨rest', starts'⟩ :=
      (startsWith_squeezed (squeezes.filled other member) text).1 ⟨rest, starts⟩
    exact longest other member rest' starts'

theorem longestSymbol?_blank {x : Char} (blank : isBlank x = true) (rest : List Char) :
    t.lexicon.longestSymbol? (x :: rest) = none := by
  refine longestSymbol?_of_head t (fun symbol member first => ?_) rest
  exact Bool.noConfusion (blank.symm.trans (squeezes.filled symbol member x (List.mem_of_head? first)))

/-- White space that follows white space is read as nothing, and other white space as a space. -/
theorem squeezed_readPlain {gap : Bool} {x : Char} {s : State} (follows : s.Follows t.config gap)
    (blank : isBlank x = true) :
    (s.readPlain t.config x).squeezed =
      if gap then s.squeezed else s.squeezed.readPlain t.config ' ' := by
  cases cuts : t.config.breaksOnBlank && s.cutsHere with
  | true =>
    rw [Bool.and_eq_true] at cuts
    have drops := squeezes.drops cuts.1
    rw [State.readPlain_cuts cuts.1 drops blank s cuts.2,
      State.readPlain_cuts cuts.1 drops rfl s.squeezed cuts.2, State.squeezed_close]
    cases gap with
    | false => rfl
    | true =>
      have empty : s.reading = [] := by simpa [State.Follows, cuts] using follows
      exact State.close_of_reading_nil drops s.squeezed (by rw [State.squeezed, empty]; rfl)
  | false =>
    have plain (y : Char) : (t.config.breaksOnBlank && isBlank y && s.cutsHere) = false := by
      rw [Bool.and_right_comm, cuts, Bool.false_and]
    have first : s.reading.head?.any isBlank = gap := by
      simpa [State.Follows, Bool.and_assoc, cuts] using follows
    rw [State.readPlain_pushes s (plain x), State.squeezed_push_blank blank s first,
      State.readPlain_pushes s.squeezed (plain ' ')]

theorem follows_readPlain {x : Char} (s : State) (blank : isBlank x = true) :
    (s.readPlain t.config x).Follows t.config true := by
  cases cuts : t.config.breaksOnBlank && s.cutsHere with
  | true =>
    rw [Bool.and_eq_true] at cuts
    rw [State.readPlain_cuts cuts.1 (squeezes.drops cuts.1) blank s cuts.2]
    have still := State.cutsHere_close t.config s
    simp only [State.Follows, cuts.1, still, cuts.2, Bool.and_self, if_true]
    rfl
  | false =>
    have plain : (t.config.breaksOnBlank && isBlank x && s.cutsHere) = false := by
      rw [Bool.and_right_comm, cuts, Bool.false_and]
    rw [State.readPlain_pushes s plain]
    have still : (s.push [x]).cutsHere = s.cutsHere := rfl
    simp only [State.Follows, Bool.true_and, still, cuts]
    exact blank

/-- A run over a squeezed text keeps what a run over the text keeps, squeezed. -/
theorem run_squeezed (text : List Char) {gap : Bool} {s : State}
    (follows : s.Follows t.config gap) :
    t.run (squeezedFrom gap text) 0 s.squeezed = (t.run text 0 s).squeezed := by
  match text with
  | [] => exact (State.squeezed_close t.config s).symm
  | x :: rest =>
    cases blank : isBlank x with
    | true =>
      rw [run_of_plain t (longestSymbol?_blank squeezes blank rest),
        ← run_squeezed rest (follows_readPlain squeezes s blank), squeezedFrom_blank blank,
        squeezed_readPlain squeezes follows blank]
      cases gap with
      | true => rfl
      | false => exact run_of_plain t (longestSymbol?_blank squeezes rfl _) s.squeezed
    | false =>
      have found := longestSymbol?_squeezed squeezes (x :: rest)
      have first : squeezedFrom gap (x :: rest) = squeezed (x :: rest) := by
        rw [squeezed_char blank, squeezedFrom_char blank]
      rw [first]
      cases longest : t.lexicon.longestSymbol? (x :: rest) with
      | none =>
        rw [longest, squeezed_char blank] at found
        have plain : (t.config.breaksOnBlank && isBlank x && s.cutsHere) = false := by
          simp [blank]
        have filled : ∀ y ∈ [x], isBlank y = false := by simpa using blank
        have next := State.follows_of_head? t.config (State.head?_push s filled (List.cons_ne_nil x []))
        rw [run_of_plain t longest, State.readPlain_pushes s plain, ← run_squeezed rest next,
          State.squeezed_push s filled, squeezed_char blank, run_of_plain t found,
          State.readPlain_pushes s.squeezed plain]
      | some symbol =>
        obtain ⟨member, notEmpty, ⟨behind, starts⟩, _⟩ := (longestSymbol?_eq_iff t).1 longest
        have filled := squeezes.filled symbol member
        have notNil : symbol.toList ≠ [] := fun empty => notEmpty (String.toList_injective empty)
        have next := State.follows_of_head? t.config
          (State.head?_readSymbol t.config s filled notNil (t.config.membership symbol))
        have shorter : behind.length < (x :: rest).length := by
          rw [starts, List.length_append]
          exact Nat.lt_add_of_pos_left (List.length_pos_iff.2 notNil)
        rw [longest] at found
        rw [starts] at found longest ⊢
        rw [squeezed_append_of_filled filled] at found ⊢
        rw [run_append_of_symbol t found, run_append_of_symbol t longest,
          ← State.squeezed_readSymbol t.config s filled, run_squeezed behind next]
termination_by text.length
decreasing_by
  · exact Nat.lt_succ_self rest.length
  · exact shorter
  · exact Nat.lt_succ_self rest.length

theorem tokens_squeezed (text : List Char) :
    t.tokens (squeezed text) = (t.tokens text).map squeezed := by
  have start : (State.start t.config).Follows t.config false := State.follows_of_head? t.config rfl
  have finished := congrArg State.finished (run_squeezed squeezes text start)
  change (t.run _ 0 (State.start t.config)).finished = _ at finished
  rw [tokens, squeezed, finished, tokens, List.map_reverse]
  rfl

end

end Abacus.Tokenizer
