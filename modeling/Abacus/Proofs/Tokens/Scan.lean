import Abacus.Proofs.Text.Nested
import Abacus.Proofs.Tokens.Lexicon

/-!
# Scanning around parentheses

The parser cuts with tokenizers whose parentheses protect what is inside of them.
Such a tokenizer passes over a nested text in one go, whatever symbols stand in its
parentheses, and cuts only at the blanks and separators around it.
-/

namespace Abacus.Tokenizer

open Text

/-- Configurations in which parentheses protect what is inside of them. -/
structure Config.Protects (c : Config) : Prop where
  openBrackets : c.openBrackets = ["("]
  closeBrackets : c.closeBrackets = [")"]
  delimiters : c.delimiters = []
  quotes : c.quotes = []
  breaksBefore : c.breaksBefore = []
  breaksAfter : c.breaksAfter = []
  trims : c.trims = true
  keepsEmpty : c.keepsEmpty = false
  separators : ∀ s ∈ c.separators, '(' ∉ s.toList ∧ ')' ∉ s.toList

/-- Whether a character outside of parentheses neither starts a separator nor ends a token. -/
def Config.Passes (c : Config) (x : Char) : Prop :=
  (∀ s ∈ c.separators, s.toList.head? ≠ some x) ∧ (c.breaksOnBlank → isBlank x = false)

def State.under (depth : Nat) (finished : List (List Char)) (reading : List Char) : State :=
  ⟨finished, reading, [depth], false⟩

def kept (reading : List Char) : List (List Char) :=
  if (trim reading.reverse).isEmpty then [] else [trim reading.reverse]

@[simp] theorem kept_nil : kept [] = [] := rfl

theorem kept_reverse {text : List Char} (filled : text ≠ []) (trimmed : trim text = text) :
    kept text.reverse = [text] := by
  simp [kept, trimmed, filled]

/-! ## Symbols -/

theorem run_append_length (t : Tokenizer) (text rest : List Char) (s : State) :
    t.run (text ++ rest) text.length s = t.run rest 0 s := by
  induction text with
  | nil => rfl
  | cons c text inductionHypothesis => exact inductionHypothesis

theorem longestSymbol?_eq_iff (t : Tokenizer) {text : List Char} {found : Option String} :
    t.lexicon.longestSymbol? text = found ↔ Lexicon.Finds t.config.symbols text found := by
  rw [t.lexicon_eq]
  exact Lexicon.longestSymbol?_eq_iff

theorem run_of_symbol (t : Tokenizer) {c : Char} {rest : List Char} {symbol : String}
    (found : t.lexicon.longestSymbol? (c :: rest) = some symbol) (s : State) :
    t.run (c :: rest) 0 s = t.run rest (symbol.toList.length - 1)
      (s.readSymbol t.config symbol.toList (t.config.membership symbol)) := by
  rw [run, found]

theorem run_append_of_symbol (t : Tokenizer) {symbol : String} {rest : List Char}
    (found : t.lexicon.longestSymbol? (symbol.toList ++ rest) = some symbol) (s : State) :
    t.run (symbol.toList ++ rest) 0 s =
      t.run rest 0 (s.readSymbol t.config symbol.toList (t.config.membership symbol)) := by
  obtain ⟨_, filled, _, _⟩ := (longestSymbol?_eq_iff t).1 found
  cases whole : symbol.toList with
  | nil => exact absurd (String.toList_injective whole) filled
  | cons c tail =>
    rw [whole, List.cons_append] at found
    rw [List.cons_append, run_of_symbol t found, whole, List.length_cons, Nat.add_sub_cancel,
      run_append_length]

theorem run_of_plain (t : Tokenizer) {c : Char} {rest : List Char}
    (found : t.lexicon.longestSymbol? (c :: rest) = none) (s : State) :
    t.run (c :: rest) 0 s = t.run rest 0 (s.readPlain t.config c) := by
  rw [run, found]

theorem longestSymbol?_of_head (t : Tokenizer) {c : Char}
    (none : ∀ symbol ∈ t.config.symbols, symbol.toList.head? ≠ some c) (rest : List Char) :
    t.lexicon.longestSymbol? (c :: rest) = Option.none := by
  rw [longestSymbol?_eq_iff]
  intro symbol member behind starts
  cases whole : symbol.toList with
  | nil => exact String.toList_injective whole
  | cons d tail =>
    rw [whole, List.cons_append, List.cons.injEq] at starts
    obtain ⟨rfl, _⟩ := starts
    exact absurd (by rw [whole]; rfl) (none symbol member)

theorem tokens_plain (t : Tokenizer) (trims : t.config.trims = true)
    (breaks : t.config.breaksOnBlank = false) {text : List Char} (filled : text ≠ [])
    (trimmed : trim text = text)
    (none : ∀ c ∈ text, ∀ symbol ∈ t.config.symbols, symbol.toList.head? ≠ some c) :
    t.tokens text = [text] := by
  have whole (s : State) : t.run text 0 s = (s.push text).close t.config := by
    clear filled trimmed
    induction text generalizing s with
    | nil => rfl
    | cons c text inductionHypothesis =>
      rw [List.forall_mem_cons] at none
      have pushes : s.readPlain t.config c = s.push [c] := by simp [State.readPlain, breaks]
      rw [run_of_plain t (longestSymbol?_of_head t none.1 text), pushes, inductionHypothesis none.2]
      simp [State.push]
  rw [tokens, whole]
  simp [State.close, State.emit, State.push, State.start, trims, trimmed, filled]

section

variable {t : Tokenizer} (protects : t.config.Protects)

include protects

theorem mem_symbols {symbol : String} :
    symbol ∈ t.config.symbols ↔ symbol ∈ t.config.separators ∨ symbol = "(" ∨ symbol = ")" := by
  simp [Config.symbols, protects.openBrackets, protects.closeBrackets, protects.delimiters,
    protects.quotes, protects.breaksBefore, protects.breaksAfter]

theorem membership_eq (symbol : String) : t.config.membership symbol =
    ⟨t.config.separators.contains symbol, false, place? symbol ["("], place? symbol [")"],
      false, false, false⟩ := by
  simp [Config.membership, protects.openBrackets, protects.closeBrackets, protects.delimiters,
    protects.quotes, protects.breaksBefore, protects.breaksAfter]

theorem symbol_of_starts {symbol : String} (member : symbol ∈ t.config.symbols) {c : Char}
    {tail : List Char} (starts : symbol.toList = c :: tail) :
    (c = '(' → symbol = "(") ∧ (c = ')' → symbol = ")") ∧
      (c ≠ '(' → c ≠ ')' → symbol ∈ t.config.separators) := by
  have first : c ∈ symbol.toList := by simp [starts]
  rcases (mem_symbols protects).1 member with separator | rfl | rfl
  · obtain ⟨noOpen, noClose⟩ := protects.separators symbol separator
    refine ⟨?_, ?_, fun _ _ => separator⟩
    · rintro rfl
      exact absurd first noOpen
    · rintro rfl
      exact absurd first noClose
  · have single : "(".toList = ['('] := rfl
    rw [single, List.cons.injEq] at starts
    simp [← starts.1]
  · have single : ")".toList = [')'] := rfl
    rw [single, List.cons.injEq] at starts
    simp [← starts.1]

theorem finds_paren {c : Char} {symbol : String} (member : symbol ∈ t.config.symbols)
    (single : symbol.toList = [c]) (paren : c = '(' ∨ c = ')') (rest : List Char) :
    t.lexicon.longestSymbol? (c :: rest) = some symbol := by
  rw [longestSymbol?_eq_iff]
  refine ⟨member, ?_, ⟨rest, by rw [single]; rfl⟩, fun other member' rest' starts => ?_⟩
  · rintro rfl
    cases single
  · cases text : other.toList with
    | nil => exact Nat.zero_le _
    | cons d tail =>
      rw [text, List.cons_append, List.cons.injEq] at starts
      obtain ⟨rfl, _⟩ := starts
      obtain ⟨opens, closes, _⟩ := symbol_of_starts protects member' text
      obtain ⟨opens', closes', _⟩ := symbol_of_starts protects member single
      have same : other = symbol := by
        rcases paren with isOpen | isClose
        · rw [opens isOpen, opens' isOpen]
        · rw [closes isClose, closes' isClose]
      exact Nat.le_of_eq (by rw [← text, same])

theorem run_open (depth : Nat) (finished : List (List Char)) (reading rest : List Char) :
    t.run ('(' :: rest) 0 (.under depth finished reading) =
      t.run rest 0 (.under (depth + 1) finished ('(' :: reading)) := by
  have member : "(" ∈ t.config.symbols := (mem_symbols protects).2 (.inr (.inl rfl))
  rw [run_of_symbol t (finds_paren protects (c := '(') member rfl (.inl rfl) rest), membership_eq protects]
  simp [State.readSymbol, State.under, place?, State.enter, State.push]

theorem run_close (depth : Nat) (finished : List (List Char)) (reading rest : List Char) :
    t.run (')' :: rest) 0 (.under (depth + 1) finished reading) =
      t.run rest 0 (.under depth finished (')' :: reading)) := by
  have member : ")" ∈ t.config.symbols := (mem_symbols protects).2 (.inr (.inr rfl))
  rw [run_of_symbol t (finds_paren protects (c := ')') member rfl (.inr rfl) rest), membership_eq protects]
  simp [State.readSymbol, State.under, place?, State.leave, State.push]

theorem readSymbol_separator {symbol : String} (separator : symbol ∈ t.config.separators) (s : State)
    (unquoted : s.quoted = false) : s.readSymbol t.config symbol.toList (t.config.membership symbol) =
      if s.cutsHere then { s.close t.config with finished := symbol.toList :: (s.close t.config).finished }
      else s.push symbol.toList := by
  obtain ⟨noOpen, noClose⟩ := protects.separators symbol separator
  have notOpen : ¬ "(" = symbol := by
    rintro rfl
    exact noOpen (List.mem_singleton.2 rfl)
  have notClose : ¬ ")" = symbol := by
    rintro rfl
    exact noClose (List.mem_singleton.2 rfl)
  rw [membership_eq protects]
  simp [State.readSymbol, unquoted, place?, notOpen, notClose, State.cut, separator]

/-! ## Nested texts -/

/-- Between parentheses everything is read into the same token, symbols included. -/
theorem run_protected {p : Char → Prop} {text : List Char} (nested : Nested p text) (depth : Nat)
    (finished : List (List Char)) (reading rest : List Char) (skip : Nat)
    (within : skip ≤ text.length) (free : ∀ c ∈ text.take skip, c ≠ '(' ∧ c ≠ ')') :
    t.run (text ++ ')' :: rest) skip (.under (depth + 1) finished reading) =
      t.run (')' :: rest) 0 (.under (depth + 1) finished ((text.drop skip).reverse ++ reading)) := by
  -- A symbol may reach over several characters, so `skip` of them can be read already.
  induction nested generalizing depth reading rest skip with
  | nil =>
    cases Nat.le_zero.1 within
    rfl
  | @char _ c text _ opens closes _ inductionHypothesis =>
    cases skip with
    | succ skip =>
      exact inductionHypothesis depth reading rest skip (Nat.le_of_succ_le_succ within)
        fun d member => free d (List.mem_cons_of_mem c member)
    | zero =>
      rw [List.cons_append]
      cases found : t.lexicon.longestSymbol? (c :: (text ++ ')' :: rest)) with
      | none =>
        rw [run_of_plain t found]
        have pushes : (State.under (depth + 1) finished reading).readPlain t.config c =
            .under (depth + 1) finished (c :: reading) := by
          simp [State.readPlain, State.cutsHere, State.under, State.push]
        rw [pushes, inductionHypothesis depth (c :: reading) rest 0 (Nat.zero_le _) (by simp)]
        simp
      | some symbol =>
        obtain ⟨member, filled, ⟨behind, starts⟩, _⟩ := (longestSymbol?_eq_iff t).1 found
        cases whole : symbol.toList with
        | nil => exact absurd (String.toList_injective whole) filled
        | cons d tail =>
          rw [whole, List.cons_append, List.cons.injEq] at starts
          obtain ⟨rfl, starts⟩ := starts
          have separator := (symbol_of_starts protects member whole).2.2 opens closes
          obtain ⟨noOpen, noClose⟩ := protects.separators symbol separator
          rw [whole] at noOpen noClose
          obtain ⟨more, rfl⟩ : ∃ more, text = tail ++ more := by
            rcases List.append_eq_append_iff.1 starts with ⟨surplus, rfl, cut⟩ | ⟨more, rfl, _⟩
            · cases surplus with
              | nil => exact ⟨[], by simp⟩
              | cons e surplus =>
                rw [List.cons_append, List.cons.injEq] at cut
                simp [← cut.1] at noClose
            · exact ⟨more, rfl⟩
          rw [run_of_symbol t found, readSymbol_separator protects separator _ rfl]
          have guarded : (State.under (depth + 1) finished reading).cutsHere = false := by
            simp [State.cutsHere, State.under]
          have skips : symbol.toList.length - 1 = tail.length := by simp [whole]
          rw [guarded, skips, whole]
          change t.run _ _ (.under (depth + 1) finished ((c :: tail).reverse ++ reading)) = _
          rw [inductionHypothesis depth _ rest tail.length (by simp)]
          · simp
          · rw [List.take_left' rfl]
            exact fun d inside => ⟨fun same => noOpen (List.mem_cons_of_mem c (same ▸ inside)),
              fun same => noClose (List.mem_cons_of_mem c (same ▸ inside))⟩
  | @group _ inner text _ _ innerHypothesis inductionHypothesis =>
    cases skip with
    | succ skip => exact absurd rfl (free '(' (by simp)).1
    | zero =>
      rw [List.cons_append, List.append_assoc, List.cons_append, run_open protects,
        innerHypothesis (depth + 1) _ _ 0 (Nat.zero_le _) (by simp), run_close protects,
        inductionHypothesis depth _ rest 0 (Nat.zero_le _) (by simp)]
      simp

/-- A nested text is read into one token where its characters pass. -/
theorem run_nested {text : List Char} (nested : Nested t.config.Passes text)
    (finished : List (List Char)) (reading rest : List Char) :
    t.run (text ++ rest) 0 (.under 0 finished reading) =
      t.run rest 0 (.under 0 finished (text.reverse ++ reading)) := by
  generalize passes : t.config.Passes = outside at nested
  induction nested generalizing reading with
  | nil => rfl
  | @char _ c text satisfied opens closes _ inductionHypothesis =>
    subst passes
    obtain ⟨starts, blank⟩ := satisfied
    have plain : t.lexicon.longestSymbol? (c :: (text ++ rest)) = none := by
      refine longestSymbol?_of_head t (fun symbol member first => ?_) _
      rcases (mem_symbols protects).1 member with separator | rfl | rfl
      · exact starts symbol separator first
      · exact opens (Option.some.inj first).symm
      · exact closes (Option.some.inj first).symm
    have pushes : (State.under 0 finished reading).readPlain t.config c =
        .under 0 finished (c :: reading) := by
      cases breaks : t.config.breaksOnBlank with
      | true => simp [State.readPlain, blank breaks, State.under, State.push]
      | false => simp [State.readPlain, breaks, State.under, State.push]
    rw [List.cons_append, run_of_plain t plain, pushes, inductionHypothesis _ rfl]
    simp
  | @group _ inner text nested _ _ inductionHypothesis =>
    rw [List.cons_append, List.append_assoc, List.cons_append, run_open protects,
      run_protected protects nested 0 _ _ _ 0 (Nat.zero_le _) (by simp), run_close protects,
      inductionHypothesis _ passes]
    simp

/-! ## Tokens -/

theorem close_under (finished : List (List Char)) (reading : List Char) :
    (State.under 0 finished reading).close t.config = .under 0 (kept reading ++ finished) [] := by
  by_cases empty : trim reading.reverse = []
  · simp [State.close, State.emit, protects.trims, protects.keepsEmpty, State.under, kept, empty]
  · simp [State.close, State.emit, protects.trims, State.under, kept, empty]

theorem start_eq : State.start t.config = .under 0 [] [] := by
  simp [State.start, State.under, protects.openBrackets]

theorem run_nil (finished : List (List Char)) (reading : List Char) :
    t.run [] 0 (.under 0 finished reading) = .under 0 (kept reading ++ finished) [] := by
  rw [run, close_under protects]

theorem run_separator {symbol : String} (separator : symbol ∈ t.config.separators)
    {rest : List Char} (found : t.lexicon.longestSymbol? (symbol.toList ++ rest) = some symbol)
    (finished : List (List Char)) (reading : List Char) :
    t.run (symbol.toList ++ rest) 0 (.under 0 finished reading) =
      t.run rest 0 (.under 0 (symbol.toList :: (kept reading ++ finished)) []) := by
  rw [run_append_of_symbol t found, readSymbol_separator protects separator _ rfl,
    close_under protects]
  rfl

theorem run_blank (breaks : t.config.breaksOnBlank = true) (none : t.config.separators = []) {x : Char}
    (blank : isBlank x) (finished : List (List Char)) (reading rest : List Char) :
    t.run (x :: rest) 0 (.under 0 finished reading) =
      t.run rest 0 (.under 0 (kept reading ++ finished) []) := by
  have plain : t.lexicon.longestSymbol? (x :: rest) = Option.none := by
    refine longestSymbol?_of_head t (fun symbol member first => ?_) rest
    rcases (mem_symbols protects).1 member with separator | rfl | rfl
    · simp [none] at separator
    · cases first
      cases blank
    · cases first
      cases blank
  have drops : (State.under 0 finished reading).readPlain t.config x =
      ((State.under 0 finished reading).close t.config).emit t.config [x] := by
    simp [State.readPlain, breaks, State.cutsHere, State.under, blank]
  rw [run_of_plain t plain, drops, close_under protects]
  simp [State.emit, protects.trims, protects.keepsEmpty, trim, trimStart, trimEnd, blank]

theorem tokens_of_allBlank (breaks : t.config.breaksOnBlank = true) (none : t.config.separators = [])
    {text : List Char} (blank : allBlank text) : t.tokens text = [] := by
  have whole : t.run text 0 (.under 0 [] []) = .under 0 [] [] := by
    induction text with
    | nil => exact run_nil protects [] []
    | cons x text inductionHypothesis =>
      rw [allBlank, List.all_cons, Bool.and_eq_true] at blank
      rw [run_blank protects breaks none blank.1]
      exact inductionHypothesis blank.2
  rw [tokens, start_eq protects, whole]
  rfl

/-- Words with single blanks between them are the tokens of a tokenizer that breaks on blanks. -/
theorem tokens_intercalate (breaks : t.config.breaksOnBlank = true)
    (none : t.config.separators = []) {words : List (List Char)}
    (each : ∀ word ∈ words, word ≠ [] ∧ Nested (fun c => isBlank c = false) word) :
    t.tokens ([' '].intercalate words) = words := by
  have reads (word : List Char) (finished : List (List Char)) (rest : List Char)
      (nested : Nested (fun c => isBlank c = false) word) :
      t.run (word ++ rest) 0 (.under 0 finished []) =
        t.run rest 0 (.under 0 finished word.reverse) := by
    have passes : Nested t.config.Passes word := nested.weaken fun c filled =>
      ⟨fun symbol separator => by simp [none] at separator, fun _ => filled⟩
    rw [run_nested protects passes, List.append_nil]
  have keeps (word : List Char) (filled : word ≠ [])
      (nested : Nested (fun c => isBlank c = false) word) : kept word.reverse = [word] :=
    kept_reverse filled (nested.trim fun _ => id)
  have whole (finished : List (List Char)) : t.run ([' '].intercalate words) 0 (.under 0 finished []) =
      .under 0 (words.reverse ++ finished) [] := by
    induction words generalizing finished with
    | nil => exact run_nil protects finished []
    | cons word words inductionHypothesis =>
      rw [List.forall_mem_cons] at each
      obtain ⟨⟨filled, nested⟩, each⟩ := each
      cases words with
      | nil =>
        have step := reads word finished [] nested
        rw [List.append_nil] at step
        rw [List.intercalate_singleton, step, run_nil protects, keeps word filled nested]
        rfl
      | cons next words =>
        rw [List.intercalate_cons_cons, List.append_assoc, reads word _ _ nested,
          List.singleton_append, run_blank protects breaks none rfl, keeps word filled nested,
          inductionHypothesis each]
        simp
  rw [tokens, start_eq protects, whole]
  simp [State.under]

/-- How separators cut a text: each is the longest symbol where it stands, and between two of them
    stands at most one nested text. -/
inductive Cut (t : Tokenizer) : List Char → List (List Char) → Prop where
  | nil : Cut t [] []
  | separator {symbol : String} {rest : List Char} {tokens : List (List Char)} :
      symbol ∈ t.config.separators →
      t.lexicon.longestSymbol? (symbol.toList ++ rest) = some symbol → Cut t rest tokens →
      Cut t (symbol.toList ++ rest) (symbol.toList :: tokens)
  | nested {text rest : List Char} {tokens : List (List Char)} : text ≠ [] → trim text = text →
      Nested t.config.Passes text →
      (rest = [] ∨ ∃ symbol ∈ t.config.separators, t.lexicon.longestSymbol? rest = some symbol) →
      Cut t rest tokens → Cut t (text ++ rest) (text :: tokens)

theorem tokens_of_cut {text : List Char} {pieces : List (List Char)} (cut : Cut t text pieces) :
    t.tokens text = pieces := by
  have whole (finished : List (List Char)) : t.run text 0 (.under 0 finished []) =
      .under 0 (pieces.reverse ++ finished) [] := by
    induction cut generalizing finished with
    | nil => exact run_nil protects finished []
    | separator separator found _ inductionHypothesis =>
      rw [run_separator protects separator found, inductionHypothesis]
      simp
    | @nested text rest pieces filled trimmed nested ends _ inductionHypothesis =>
      have keeps := kept_reverse filled trimmed
      have closes : t.run rest 0 (.under 0 finished text.reverse) =
          t.run rest 0 (.under 0 (text :: finished) []) := by
        rcases ends with rfl | ⟨symbol, separator, found⟩
        · rw [run_nil protects, run_nil protects, keeps]
          rfl
        · obtain ⟨_, _, ⟨behind, rfl⟩, _⟩ := (longestSymbol?_eq_iff t).1 found
          rw [run_separator protects separator found, run_separator protects separator found, keeps]
          rfl
      rw [run_nested protects nested, List.append_nil, closes, inductionHypothesis]
      simp
  rw [tokens, start_eq protects, whole]
  simp [State.under]

end

end Abacus.Tokenizer
