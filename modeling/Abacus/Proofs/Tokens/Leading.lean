import Abacus.Proofs.Tokens.Scan

/-!
# What the first token starts with

What a tokenizer makes of a text does not depend on the tokens that are finished already, so a word
or a symbol in front is a token and the tokens of the rest follow.  A text that starts with filled
characters has a first token that starts with them.
-/

namespace Abacus.Tokenizer

open Text

/-! ## Finished tokens -/

namespace State

def behind (earlier : List (List Char)) (s : State) : State :=
  { s with finished := s.finished ++ earlier }

variable (earlier : List (List Char)) (c : Config) (s : State) (text : List Char)

theorem emit_behind (token : List Char) :
    (s.behind earlier).emit c token = (s.emit c token).behind earlier := by
  unfold emit
  dsimp only
  generalize (if c.trims then trim token else token) = kept
  split <;> rfl

theorem close_behind : (s.behind earlier).close c = (s.close c).behind earlier := by
  unfold close
  rw [emit_behind]
  rfl

theorem close_behind_if (breaks : Bool) :
    (if (s.behind earlier).cutsHere && breaks then (s.behind earlier).close c
      else s.behind earlier) =
      (if s.cutsHere && breaks then s.close c else s).behind earlier := by
  rw [close_behind]
  exact (apply_ite (behind earlier) _ _ _).symm

theorem cut_behind (sets : Membership) :
    (s.behind earlier).cut c text sets = (s.cut c text sets).behind earlier := by
  unfold cut
  rw [close_behind]
  split
  · rfl
  · split
    · rfl
    · split
      · rfl
      · split
        · exact close_behind earlier c (s.push text)
        · rfl

theorem enter_behind (sets : Membership) (pair : Nat) :
    (s.behind earlier).enter c text sets pair = (s.enter c text sets pair).behind earlier := by
  unfold enter
  rw [close_behind_if]
  rfl

theorem leave_behind (sets : Membership) (pair : Nat) :
    (s.behind earlier).leave c text sets pair = (s.leave c text sets pair).behind earlier := by
  unfold leave
  exact close_behind_if earlier c ({ s with nesting := s.nesting.modify pair (· - 1) }.push text) _

theorem readSymbol_behind (sets : Membership) :
    (s.behind earlier).readSymbol c text sets = (s.readSymbol c text sets).behind earlier := by
  unfold readSymbol
  split
  · rfl
  · change (if s.quoted then _ else _) = _
    split
    · rfl
    · cases sets.opens with
      | some pair => exact enter_behind earlier c s text sets pair
      | none =>
        cases sets.closes with
        | some pair => exact leave_behind earlier c s text sets pair
        | none =>
          dsimp only
          change (if s.cutsHere then _ else _) = _
          split
          · exact cut_behind earlier c s text sets
          · rfl

theorem readPlain_behind (x : Char) :
    (s.behind earlier).readPlain c x = (s.readPlain c x).behind earlier := by
  unfold readPlain
  change (if c.breaksOnBlank && isBlank x && s.cutsHere then _ else _) = _
  split
  · rw [close_behind, emit_behind]
  · rfl

end State

theorem run_behind (t : Tokenizer) (earlier : List (List Char)) (text : List Char) (skip : Nat)
    (s : State) : t.run text skip (s.behind earlier) = (t.run text skip s).behind earlier := by
  induction text generalizing skip s with
  | nil => exact State.close_behind earlier t.config s
  | cons c rest inductionHypothesis =>
    cases skip with
    | succ skip => exact inductionHypothesis skip s
    | zero =>
      cases found : t.lexicon.longestSymbol? (c :: rest) with
      | none =>
        rw [run_of_plain t found, run_of_plain t found, State.readPlain_behind,
          inductionHypothesis]
      | some symbol =>
        rw [run_of_symbol t found, run_of_symbol t found, State.readSymbol_behind,
          inductionHypothesis]

section

variable {t : Tokenizer} (protects : t.config.Protects)

include protects

theorem finished_run_under (earlier : List (List Char)) (text : List Char) :
    (t.run text 0 (.under 0 earlier [])).finished.reverse = earlier.reverse ++ t.tokens text := by
  have start : State.under 0 earlier [] = (State.start t.config).behind earlier := by
    rw [start_eq protects]
    rfl
  rw [start, run_behind, State.behind, List.reverse_append, tokens]

/-! ## First tokens -/

theorem tokens_separator {symbol : String} (separator : symbol ∈ t.config.separators)
    {rest : List Char} (found : t.lexicon.longestSymbol? (symbol.toList ++ rest) = some symbol) :
    t.tokens (symbol.toList ++ rest) = symbol.toList :: t.tokens rest := by
  rw [tokens, start_eq protects, run_separator protects separator found,
    finished_run_under protects]
  rfl

end

section

variable {t : Tokenizer} (protects : t.config.Protects) (breaks : t.config.breaksOnBlank = true)
  (none : t.config.separators = [])

include protects breaks none

theorem tokens_word {word : List Char} (filled : word ≠ [])
    (nested : Nested (fun c => isBlank c = false) word) {x : Char} (blank : isBlank x)
    (rest : List Char) : t.tokens (word ++ x :: rest) = word :: t.tokens rest := by
  have passes : Nested t.config.Passes word := nested.weaken fun c filled =>
    ⟨fun symbol separator => by simp [none] at separator, fun _ => filled⟩
  have keeps : kept word.reverse = [word] := kept_reverse filled (nested.trim fun _ => id)
  rw [tokens, start_eq protects, run_nested protects passes, List.append_nil,
    run_blank protects breaks none blank, finished_run_under protects, keeps]
  rfl

theorem run_char (c : Char) (rest : List Char) (depth : Nat) (finished : List (List Char))
    (reading : List Char) :
    (∃ depth', t.run (c :: rest) 0 (.under depth finished reading) =
      t.run rest 0 (.under depth' finished (c :: reading))) ∨
    t.run (c :: rest) 0 (.under depth finished reading) =
      t.run rest 0 (.under 0 (kept reading ++ finished) []) := by
  by_cases opens : c = '('
  · subst opens
    exact .inl ⟨depth + 1, run_open protects depth finished reading rest⟩
  by_cases closes : c = ')'
  · subst closes
    cases depth with
    | succ depth => exact .inl ⟨depth, run_close protects depth finished reading rest⟩
    | zero =>
      have member : ")" ∈ t.config.symbols := (mem_symbols protects).2 (.inr (.inr rfl))
      refine .inl ⟨0, ?_⟩
      rw [run_of_symbol t (finds_paren protects (c := ')') member rfl (.inr rfl) rest),
        membership_eq protects]
      simp [State.readSymbol, State.under, place?, State.leave, State.push]
  have plain : t.lexicon.longestSymbol? (c :: rest) = Option.none := by
    refine longestSymbol?_of_head t (fun symbol member first => ?_) rest
    rcases (mem_symbols protects).1 member with separator | rfl | rfl
    · simp [none] at separator
    · exact opens (Option.some.inj first).symm
    · exact closes (Option.some.inj first).symm
  by_cases cuts : isBlank c ∧ depth = 0
  · obtain ⟨blank, rfl⟩ := cuts
    exact .inr (run_blank protects breaks none blank finished reading rest)
  · refine .inl ⟨depth, ?_⟩
    rw [run_of_plain t plain]
    have pushes : (State.under depth finished reading).readPlain t.config c =
        .under depth finished (c :: reading) := by
      have stays : (t.config.breaksOnBlank && isBlank c &&
          (State.under depth finished reading).cutsHere) = false := by
        simpa [State.cutsHere, State.under, breaks] using fun blank same => cuts ⟨blank, same⟩
      rw [State.readPlain, stays]
      rfl
    rw [pushes]

/-- The token that is read when no token is finished yet becomes the first one. -/
theorem first_of_reading (text : List Char) (depth : Nat) (reading : List Char)
    (filled : ∀ more, trim (reading.reverse ++ more) ≠ []) :
    ∃ more others, (t.run text 0 (.under depth [] reading)).finished.reverse =
      trim (reading.reverse ++ more) :: others ∧ more <+: text := by
  have keeps (reading : List Char) (filled : ∀ more, trim (reading.reverse ++ more) ≠ []) :
      kept reading = [trim reading.reverse] := by
    have some := filled []
    rw [List.append_nil] at some
    simp [kept, some]
  induction text generalizing depth reading with
  | nil =>
    refine ⟨[], [], ?_, List.prefix_rfl⟩
    have some := filled []
    rw [List.append_nil] at some ⊢
    simp [run, State.close, State.emit, State.under, protects.trims, some]
  | cons c text inductionHypothesis =>
    rcases run_char protects breaks none c text depth [] reading with ⟨depth', reads⟩ | cuts
    · have whole (more : List Char) :
          (c :: reading).reverse ++ more = reading.reverse ++ c :: more := by
        simp
      obtain ⟨more, others, ends, starts⟩ := inductionHypothesis depth' (c :: reading)
        (fun more => whole more ▸ filled (c :: more))
      rw [whole] at ends
      exact ⟨c :: more, others, reads ▸ ends, List.cons_prefix_cons.2 ⟨rfl, starts⟩⟩
    · -- The first token ends here, and the rest is as if the text started behind it.
      refine ⟨[], t.tokens text, ?_, List.nil_prefix⟩
      rw [cuts, finished_run_under protects, keeps reading filled, List.append_nil, List.append_nil]
      rfl

theorem exists_first_token {word : List Char} (filled : word ≠ [])
    (chars : ∀ c ∈ word, isBlank c = false ∧ c ≠ '(' ∧ c ≠ ')') (rest : List Char) :
    ∃ more others, t.tokens (word ++ rest) = (word ++ more) :: others ∧ more <+: rest := by
  have passes : Nested t.config.Passes word := .ofChars fun c member =>
    ⟨⟨fun symbol separator => by simp [none] at separator, fun _ => (chars c member).1⟩,
      (chars c member).2⟩
  have trims (more : List Char) : trim (word ++ more) = word ++ trimEnd more := by
    have stays (text : List Char) (filled : text ≠ [])
        (chars : ∀ c ∈ text, isBlank c = false) (rest : List Char) :
        (text ++ rest).dropWhile isBlank = text ++ rest := by
      obtain ⟨c, text, rfl⟩ := List.exists_cons_of_ne_nil filled
      exact List.dropWhile_cons_of_neg (by simp [chars c List.mem_cons_self])
    have back := stays word.reverse (by simpa using filled)
      (fun c member => (chars c (List.mem_reverse.1 member)).1) []
    rw [List.append_nil] at back
    rw [trim, trimStart, stays word filled (fun c member => (chars c member).1), trimEnd,
      List.reverse_append, List.dropWhile_append, back, trimEnd]
    split
    · rename_i gone
      rw [List.isEmpty_iff.1 gone]
      simp
    · simp
  obtain ⟨more, others, ends, starts⟩ := first_of_reading protects breaks none rest 0 word.reverse
    fun more => by
      rw [List.reverse_reverse, trims]
      simp [filled]
  rw [List.reverse_reverse, trims] at ends
  refine ⟨trimEnd more, others, ?_, ?_⟩
  · rw [tokens, start_eq protects, run_nested protects passes, List.append_nil, ends]
  · have front : trimEnd more <+: more := List.reverse_suffix.1 (by
      rw [trimEnd, List.reverse_reverse]
      exact List.dropWhile_suffix isBlank)
    exact front.trans starts

end

end Abacus.Tokenizer
