import Abacus.Proofs.Text.Depth
import Abacus.Proofs.Tokens.Stability

/-!
# Brackets in balanced texts

A tokenizer that counts parentheses and has no other symbol with a parenthesis in it counts them as
the text has them: behind its steps as many are open as behind the characters that they read.  So on
a balanced text its counter never saturates and its tokens are balanced, and one that cuts around
parentheses leaves each container whole.
-/

namespace Abacus.Tokenizer

open Text Parse

/-! ## Counters -/

/-- Whether a step closes a bracket that is not open, so that its counter stays at zero. -/
def Config.saturates (c : Config) (k : Context) : Step → Bool
  | .plain _ => false
  | .symbol found =>
    let sets := c.membership found
    match sets.opens, sets.closes with
    | none, some pair => !sets.quote && !k.quoted && k.nesting.getD pair 0 = 0
    | _, _ => false

def State.read? (c : Config) (s : State) (x : Step) : Option State :=
  if c.saturates s.context x then none else some (s.read c x)

/-- Whether no counter saturates while a text is read. -/
def steady (t : Tokenizer) (text : List Char) : Bool :=
  ((t.steps text).foldlM (State.read? t.config) (.start t.config)).isSome

/-- Configurations whose brackets are the parentheses, which no other symbol contains, and that drop
    nothing but white space. -/
structure Config.Counts (c : Config) : Prop where
  openBrackets : c.openBrackets = ["("]
  closeBrackets : c.closeBrackets = [")"]
  quotes : c.quotes = []
  delimiters : c.delimiters = []
  others : ∀ s ∈ c.symbols, s = "(" ∨ s = ")" ∨ '(' ∉ s.toList ∧ ')' ∉ s.toList

def Context.under (depth : Nat) : Context := ⟨[depth], false⟩

theorem eq_zero_of_isFree {depth : Nat} (free : (Context.under depth).isFree = true) :
    depth = 0 := by
  simpa [Context.isFree, Context.under] using free

/-- Steps that are one parenthesis or have none. -/
inductive Step.Counted : Step → Prop where
  | opens : Counted (.symbol "(")
  | closes : Counted (.symbol ")")
  | free {x : Step} : (∀ c ∈ x.text, c ≠ '(' ∧ c ≠ ')') → Counted x

theorem ne_parens_of_free {symbol : String} (free : ∀ c ∈ symbol.toList, c ≠ '(' ∧ c ≠ ')') :
    symbol ≠ "(" ∧ symbol ≠ ")" := by
  refine ⟨?_, ?_⟩
  · rintro rfl
    exact (free '(' (List.mem_singleton_self _)).1 rfl
  · rintro rfl
    exact (free ')' (List.mem_singleton_self _)).2 rfl

namespace Config.Counts

variable {c : Config} (counts : c.Counts)

include counts

theorem start_eq : Context.start c = .under 0 := by
  rw [Context.start, counts.openBrackets]
  rfl

theorem mem_symbols : "(" ∈ c.symbols ∧ ")" ∈ c.symbols := by
  simp [Config.symbols, counts.openBrackets, counts.closeBrackets]

theorem membership_eq (symbol : String) : (c.membership symbol).quote = false ∧
    (c.membership symbol).opens = place? symbol ["("] ∧
    (c.membership symbol).closes = place? symbol [")"] := by
  simp [Config.membership, counts.openBrackets, counts.closeBrackets, counts.quotes]

theorem turn_under {x : Step} (counted : x.Counted) {depth next : Nat}
    (reads : depth? depth x.text = some next) : (c.turn (.under depth) x).2 = .under next := by
  cases counted with
  | opens =>
    obtain ⟨unquoted, opens, _⟩ := counts.membership_eq "("
    obtain rfl : depth + 1 = next := Option.some.inj reads
    simp [Config.turn, Membership.turn, unquoted, opens, place?, Context.under, Context.enter]
  | closes =>
    obtain ⟨unquoted, opens, closes⟩ := counts.membership_eq ")"
    cases depth with
    | zero => cases reads
    | succ depth =>
      obtain rfl : depth = next := Option.some.inj reads
      simp [Config.turn, Membership.turn, unquoted, opens, closes, place?, Context.under,
        Context.leave]
  | free free =>
    rw [depth?_of_chars free] at reads
    cases reads
    cases x with
    | plain x => rfl
    | symbol found =>
      obtain ⟨unquoted, opens, closes⟩ := counts.membership_eq found
      obtain ⟨notOpen, notClose⟩ := ne_parens_of_free free
      simp [Config.turn, Membership.turn, unquoted, opens, closes, place?, Ne.symm notOpen,
        Ne.symm notClose, Context.under]

theorem saturates_under {x : Step} (counted : x.Counted) {depth next : Nat}
    (reads : depth? depth x.text = some next) : c.saturates (.under depth) x = false := by
  cases counted with
  | opens =>
    obtain ⟨_, opens, _⟩ := counts.membership_eq "("
    simp [Config.saturates, opens, place?]
  | closes =>
    obtain ⟨unquoted, opens, closes⟩ := counts.membership_eq ")"
    cases depth with
    | zero => cases reads
    | succ depth => simp [Config.saturates, opens, closes, place?, Context.under]
  | free free =>
    cases x with
    | plain x => rfl
    | symbol found =>
      obtain ⟨_, opens, closes⟩ := counts.membership_eq found
      have notClose := Ne.symm (ne_parens_of_free free).2
      simp only [Config.saturates, closes, place?, notClose, if_false, Option.map_none]
      cases (c.membership found).opens <;> rfl

theorem isSome_foldlM_read? {steps : List Step} (counted : ∀ x ∈ steps, x.Counted) {s : State}
    {depth last : Nat} (under : s.context = .under depth)
    (reads : depth? depth (Step.texts steps) = some last) :
    (steps.foldlM (State.read? c) s).isSome := by
  induction steps generalizing s depth with
  | nil => rfl
  | cons x steps inductionHypothesis =>
    rw [List.forall_mem_cons] at counted
    obtain ⟨next, first, others⟩ := depth?_append_eq_some reads
    have context : (s.read c x).context = .under next := by
      rw [State.read_eq, under, ← counts.turn_under counted.1 first]
      rfl
    rw [List.foldlM_cons, State.read?, under, counts.saturates_under counted.1 first]
    exact inductionHypothesis counted.2 context others

theorem cuts_under {x : Step} (counted : x.Counted) {depth next : Nat}
    (reads : depth? depth x.text = some next) :
    ((c.turn (.under depth) x).1.cutsBefore = true → depth = 0) ∧
      ((c.turn (.under depth) x).1.cutsBehind = true → next = 0) := by
  have fits := fits_turn c (.under depth) x
  refine ⟨fun cuts => eq_zero_of_isFree (fits.before cuts), fun cuts => eq_zero_of_isFree ?_⟩
  rw [← counts.turn_under counted reads]
  exact fits.behind cuts

end Config.Counts

section

variable {t : Tokenizer} (counts : t.config.Counts)

include counts

theorem counted_of_mem_steps {text : List Char} {x : Step} (member : x ∈ t.steps text) :
    x.Counted := by
  cases x with
  | plain c =>
    have alone := t.not_mem_symbols_of_plain member
    refine .free (List.forall_mem_singleton.2 ⟨?_, ?_⟩)
    · rintro rfl
      exact alone counts.mem_symbols.1
    · rintro rfl
      exact alone counts.mem_symbols.2
  | symbol found =>
    have configured := (t.mem_symbols_of_mem_steps member).1
    rcases counts.others found configured with rfl | rfl | ⟨noOpen, noClose⟩
    · exact .opens
    · exact .closes
    · exact .free fun c member =>
        ⟨fun same => noOpen (same ▸ member), fun same => noClose (same ▸ member)⟩

theorem steady_of_balanced {text : List Char} (pairs : balanced text) : t.steady text :=
  counts.isSome_foldlM_read? (fun x => counted_of_mem_steps counts) counts.start_eq
    (by rw [texts_steps, balanced_iff.1 pairs])

end

/-! ## Tokens -/

/-- The text that is being read behind a step, before a cut behind it. -/
def Effect.reads (e : Effect) (reading : List Char) (x : Step) : List Char :=
  if e.cutsBefore then x.text else reading ++ x.text

/-- A token of turns ends before the first of them, behind it or later. -/
theorem mem_assemble_cons {c : Config} {reading token : List Char} {x : Step} {e : Effect}
    {turns : List (Step × Effect)} (member : token ∈ c.assemble reading ((x, e) :: turns)) :
    (e.cutsBefore = true ∧ token ∈ c.emitted reading) ∨
    (e.cutsBehind = true ∧ token ∈ e.reads reading x :: c.emitted (e.reads reading x)) ∨
    token ∈ c.assemble (if e.cutsBehind then [] else e.reads reading x) turns := by
  cases e with
  | join => exact .inr (.inr member)
  | opens => exact (List.mem_append.1 member).imp (⟨rfl, ·⟩) .inr
  | closes =>
    exact .inr ((List.mem_append.1 member).imp (⟨rfl, List.mem_cons_of_mem _ ·⟩) id)
  | alone =>
    refine (List.mem_append.1 member).imp (⟨rfl, ·⟩) fun member => ?_
    exact (List.mem_cons.1 member).imp (⟨rfl, List.mem_cons.2 <| .inl ·⟩) id
  | gap =>
    rcases List.mem_append.1 member with member | member
    · exact (List.mem_append.1 member).imp (⟨rfl, ·⟩) fun found =>
        .inl ⟨rfl, List.mem_cons_of_mem _ found⟩
    · exact .inr (.inr member)
  | drop => exact (List.mem_append.1 member).imp (⟨rfl, ·⟩) .inr

/-- What is kept of the text that is being read, given how many parentheses are open in it, so that
    each token has it at its end.  Cuts are outside of all parentheses. -/
structure Config.Keeps (c : Config) (Reading : Nat → List Char → Prop)
    (Ended : List Char → Prop) : Prop where
  nothing : Reading 0 []
  step {depth next : Nat} {reading : List Char} {x : Step} : x.Counted →
    depth? depth x.text = some next → Reading depth reading →
    let e := (c.turn (.under depth) x).1
    (e.cutsBefore = true → depth = 0) → (e.cutsBehind = true → next = 0) →
    if e.cutsBehind then Ended (e.reads reading x) else Reading next (e.reads reading x)
  rest {reading : List Char} : Reading 0 reading → Ended reading
  emitted {read : List Char} : Ended read → ∀ token ∈ c.emitted read, Ended token

/-- The induction is on the steps; the depth of the text is the counter of the tokenizer, so that
    nothing is cut off inside of parentheses. -/
theorem Config.Keeps.ended_of_mem_assemble {c : Config} {Reading : Nat → List Char → Prop}
    {Ended : List Char → Prop} (keeps : c.Keeps Reading Ended) (counts : c.Counts)
    {steps : List Step} (counted : ∀ x ∈ steps, x.Counted) {reading token : List Char} {depth : Nat}
    (before : Reading depth reading) (reads : depth? depth (Step.texts steps) = some 0)
    (among : token ∈ c.assemble reading (c.turns (.under depth) steps)) : Ended token := by
  induction steps generalizing reading depth with
  | nil =>
    cases reads
    exact keeps.emitted (keeps.rest before) token among
  | cons x steps inductionHypothesis =>
    rw [List.forall_mem_cons] at counted
    obtain ⟨next, first, others⟩ := depth?_append_eq_some reads
    have behind := counts.turn_under counted.1 first
    obtain ⟨closedBefore, closedBehind⟩ := counts.cuts_under counted.1 first
    have after := keeps.step counted.1 first before closedBefore closedBehind
    rw [Config.turns, behind] at among
    generalize (c.turn (.under depth) x).1 = e at among closedBefore closedBehind after
    rcases mem_assemble_cons among with ⟨cuts, found⟩ | ⟨cuts, found⟩ | found
    · obtain rfl := closedBefore cuts
      exact keeps.emitted (keeps.rest before) token found
    · rw [if_pos cuts] at after
      rcases List.mem_cons.1 found with rfl | found
      · exact after
      · exact keeps.emitted after token found
    · cases cuts : e.cutsBehind with
      | true =>
        obtain rfl := closedBehind cuts
        rw [cuts] at found
        exact inductionHypothesis counted.2 keeps.nothing others found
      | false =>
        rw [cuts] at found after
        exact inductionHypothesis counted.2 after others found

theorem Config.keeps_balanced (c : Config) :
    c.Keeps (fun depth reading => depth? 0 reading = some depth) fun token => balanced token where
  nothing := rfl
  step := by
    intro depth next reading x _ first before e closedBefore closedBehind
    have reads : depth? 0 (e.reads reading x) = some next := by
      unfold Effect.reads
      split
      · rename_i cuts
        obtain rfl := closedBefore cuts
        exact first
      · rw [depth?_append, before, Option.bind_some, first]
    split
    · rename_i cuts
      obtain rfl := closedBehind cuts
      exact balanced_iff.2 reads
    · exact reads
  rest := balanced_iff.2
  emitted := by
    intro read pairs token member
    rw [(emitted_of_mem member).1]
    split
    · exact balanced_trim pairs
    · exact pairs

/-- Each token of a balanced text has what is kept of the text that is being read. -/
theorem forall_mem_tokens {t : Tokenizer} {Reading : Nat → List Char → Prop}
    {Ended : List Char → Prop} (keeps : t.config.Keeps Reading Ended) (counts : t.config.Counts)
    {text : List Char} (pairs : balanced text) : ∀ token ∈ t.tokens text, Ended token := by
  intro token member
  rw [tokens_eq_assemble, counts.start_eq] at member
  refine keeps.ended_of_mem_assemble counts (fun x => counted_of_mem_steps counts) keeps.nothing ?_
    member
  rw [texts_steps, balanced_iff.1 pairs]

theorem balanced_of_mem_tokens {t : Tokenizer} (counts : t.config.Counts) {text : List Char}
    (pairs : balanced text) : ∀ token ∈ t.tokens text, balanced token :=
  forall_mem_tokens t.config.keeps_balanced counts pairs

/-! ## Containers -/

/-- Configurations that cut in front of each outer parenthesis and behind its partner, and nowhere
    else. -/
structure Config.Isolates (c : Config) : Prop extends c.Counts where
  separators : c.separators = []
  breaksBefore : c.breaksBefore = ["("]
  breaksAfter : c.breaksAfter = [")"]
  breaksOnBlank : c.breaksOnBlank = false
  trims : c.trims = true

namespace Config.Isolates

variable {c : Config} (isolates : c.Isolates)

include isolates

theorem sets_eq (symbol : String) : c.membership symbol = ⟨false, false, place? symbol ["("],
    place? symbol [")"], false, decide (symbol = "("), decide (symbol = ")")⟩ := by
  simp [Config.membership, isolates.openBrackets, isolates.closeBrackets, isolates.quotes,
    isolates.separators, isolates.delimiters, isolates.breaksBefore, isolates.breaksAfter]

theorem effect_open (depth : Nat) :
    (c.turn (.under depth) (.symbol "(")).1 = if depth = 0 then .opens else .join := by
  simp [Config.turn, isolates.sets_eq, Membership.turn, place?, Context.under, Context.isFree]

theorem effect_close (depth : Nat) :
    (c.turn (.under (depth + 1)) (.symbol ")")).1 = if depth = 0 then .closes else .join := by
  simp [Config.turn, isolates.sets_eq, Membership.turn, place?, Context.under, Context.isFree,
    Context.leave]

theorem effect_free (depth : Nat) {x : Step} (free : ∀ d ∈ x.text, d ≠ '(' ∧ d ≠ ')') :
    (c.turn (.under depth) x).1 = .join := by
  cases x with
  | plain x => simp [Config.turn, isolates.breaksOnBlank]
  | symbol found =>
    obtain ⟨notOpen, notClose⟩ := ne_parens_of_free free
    simp [Config.turn, isolates.sets_eq, Membership.turn, Membership.effect, place?, notOpen,
      notClose, Ne.symm notOpen, Ne.symm notClose, Context.under]

end Config.Isolates

/-- What is being read around parentheses: nothing of a container, or a container up to here. -/
def Partial : (depth : Nat) → List Char → Prop
  | 0, reading => '(' ∉ reading
  | depth + 1, reading => ∃ inner, reading = '(' :: inner ∧ depth? 0 inner = some depth

theorem Partial.append {depth next : Nat} {reading text : List Char}
    (before : Partial (depth + 1) reading) (reads : depth? depth text = some next) :
    Partial (next + 1) (reading ++ text) := by
  obtain ⟨inner, rfl, inside⟩ := before
  exact ⟨inner ++ text, rfl, by rw [depth?_append, inside, Option.bind_some, reads]⟩

def Apart (token : List Char) : Prop := '(' ∉ token ∨ (betweenParens? token).isSome

theorem Apart.trim {token : List Char} (apart : Apart token) : Apart (Text.trim token) := by
  rcases apart with outside | container
  · have within := (Spaced.trim token).sublist _ List.mem_cons_self
    exact .inl fun member => outside (within.subset member)
  · obtain ⟨inner, found⟩ := Option.isSome_iff_exists.1 container
    obtain ⟨first, last⟩ := ends_of_betweenParens? found
    have same : Text.trim token = token :=
      trim_of_filled (fun c head => by rw [first] at head; cases head; rfl)
        fun c back => by rw [last] at back; cases back; rfl
    rw [same]
    exact .inr container

theorem Config.Isolates.keeps_apart {c : Config} (isolates : c.Isolates) :
    c.Keeps Partial Apart where
  nothing := List.not_mem_nil
  step := by
    intro depth next reading x counted first before e _ _
    cases counted with
    | opens =>
      obtain rfl : depth + 1 = next := Option.some.inj first
      have effect := isolates.effect_open depth
      cases depth with
      | zero =>
        have same : e = .opens := effect
        rw [same]
        exact ⟨[], rfl, rfl⟩
      | succ depth =>
        have same : e = .join := effect
        rw [same]
        exact Partial.append before rfl
    | closes =>
      cases depth with
      | zero => cases first
      | succ depth =>
        obtain rfl : depth = next := Option.some.inj first
        have effect := isolates.effect_close depth
        cases depth with
        | zero =>
          have same : e = .closes := effect
          obtain ⟨inner, rfl, inside⟩ := before
          rw [same]
          have nested := nested_of_balanced inner (balanced_iff.2 inside)
          exact .inr (Option.isSome_iff_exists.2 ⟨inner, betweenParens?_parens nested⟩)
        | succ depth =>
          have same : e = .join := effect
          rw [same]
          exact Partial.append before rfl
    | free free =>
      rw [depth?_of_chars free] at first
      cases first
      have same : e = .join := isolates.effect_free depth free
      rw [same]
      cases depth with
      | zero =>
        exact fun member =>
          (List.mem_append.1 member).elim before fun member => (free _ member).1 rfl
      | succ depth => exact Partial.append before (depth?_of_chars free depth)
  rest := .inl
  emitted := by
    intro read apart token member
    rw [(emitted_of_mem member).1, isolates.trims]
    exact apart.trim

theorem apart_of_mem_tokens {t : Tokenizer} (isolates : t.config.Isolates) {text : List Char}
    (pairs : balanced text) : ∀ token ∈ t.tokens text, Apart token :=
  forall_mem_tokens isolates.keeps_apart isolates.toCounts pairs

end Abacus.Tokenizer
