import Abacus.Proofs.Tokens.Steps

/-!
# What each step of a text does to the tokens

Reading a step changes what is open and does one of six things to the tokens.  Which one it is
depends on the step and on what is open, and on nothing that was read into a token before, so the
tokens of a text are put together from the turns that its steps take.
-/

namespace Abacus.Tokenizer

open Text

/-! ## Turns -/

/-- How often each bracket is open, and whether a quotation is. -/
structure Context where
  nesting : List Nat
  quoted : Bool

def Context.start (c : Config) : Context := ⟨c.openBrackets.map fun _ => 0, false⟩

namespace Context

/-- Whether symbols cut: nothing is open. -/
def isFree (k : Context) : Bool := !k.quoted && k.nesting.all (· = 0)

def toggle (k : Context) : Context := { k with quoted := !k.quoted }

def enter (k : Context) (pair : Nat) : Context := { k with nesting := k.nesting.modify pair (· + 1) }

def leave (k : Context) (pair : Nat) : Context := { k with nesting := k.nesting.modify pair (· - 1) }

end Context

inductive Effect where
  /-- It belongs to the token that is being read. -/
  | join
  /-- It starts a token. -/
  | opens
  /-- It ends the token that it belongs to. -/
  | closes
  /-- It ends the token before it and is a token of its own. -/
  | alone
  /-- It is white space that ends the token before it. -/
  | gap
  /-- It ends the token before it and is dropped. -/
  | drop
  deriving DecidableEq

def Effect.cutsBefore : Effect → Bool
  | .join | .closes => false
  | .opens | .alone | .gap | .drop => true

def Effect.cutsBehind : Effect → Bool
  | .join | .opens => false
  | .closes | .alone | .gap | .drop => true

/-- What a symbol does that is neither a quote nor a bracket, where symbols cut. -/
def Membership.effect (sets : Membership) : Effect :=
  if sets.separator then .alone
  else if sets.delimiter then .drop
  else if sets.breakBefore then .opens
  else if sets.breakAfter then .closes
  else .join

def Membership.turn (sets : Membership) (k : Context) : Effect × Context :=
  if sets.quote then (.join, k.toggle)
  else if k.quoted then (.join, k)
  else match sets.opens, sets.closes with
    | some pair, _ => (if k.isFree && sets.breakBefore then .opens else .join, k.enter pair)
    | none, some pair =>
      (if (k.leave pair).isFree && sets.breakAfter then .closes else .join, k.leave pair)
    | none, none => (if k.isFree then sets.effect else .join, k)

def Config.turn (c : Config) (k : Context) : Step → Effect × Context
  | .symbol found => (c.membership found).turn k
  | .plain x => (if c.breaksOnBlank && isBlank x && k.isFree then .gap else .join, k)

def Config.after (c : Config) (k : Context) (steps : List Step) : Context :=
  steps.foldl (fun k x => (c.turn k x).2) k

def Config.turns (c : Config) (k : Context) : List Step → List (Step × Effect)
  | [] => []
  | x :: steps => (x, (c.turn k x).1) :: c.turns (c.turn k x).2 steps

section

variable {c : Config} {k : Context} {x : Step} {steps more : List Step}

theorem turns_append : c.turns k (steps ++ more) =
    c.turns k steps ++ c.turns (c.after k steps) more := by
  induction steps generalizing k with
  | nil => rfl
  | cons x steps inductionHypothesis =>
    rw [List.cons_append, Config.turns, inductionHypothesis]
    rfl

@[simp] theorem map_fst_turns : (c.turns k steps).map Prod.fst = steps := by
  induction steps generalizing k with
  | nil => rfl
  | cons x steps inductionHypothesis => rw [Config.turns, List.map_cons, inductionHypothesis]

theorem after_append : c.after k (steps ++ more) = c.after (c.after k steps) more :=
  List.foldl_append

/-! ## Where tokens end -/

/-- A step cuts only where nothing is open, and opens or closes no bracket that is not configured. -/
structure Fits (k : Context) (turn : Effect × Context) : Prop where
  before : turn.1.cutsBefore = true → k.isFree = true
  behind : turn.1.cutsBehind = true → turn.2.isFree = true
  length : turn.2.nesting.length = k.nesting.length

theorem Fits.join {k' : Context} (length : k'.nesting.length = k.nesting.length) :
    Fits k (.join, k') := ⟨nofun, nofun, length⟩

theorem Fits.free (e : Effect) (free : k.isFree = true) : Fits k (e, k) :=
  ⟨fun _ => free, fun _ => free, rfl⟩

theorem fits_turn (c : Config) (k : Context) (x : Step) : Fits k (c.turn k x) := by
  cases x with
  | plain x =>
    rw [Config.turn]
    split
    · rename_i cuts
      rw [Bool.and_eq_true] at cuts
      exact .free _ cuts.2
    · exact .join rfl
  | symbol found =>
    rw [Config.turn, Membership.turn]
    split
    · exact .join rfl
    split
    · exact .join rfl
    split
    · split
      · rename_i cuts
        rw [Bool.and_eq_true] at cuts
        exact ⟨fun _ => cuts.1, nofun, List.length_modify ..⟩
      · exact .join (List.length_modify ..)
    · split
      · rename_i cuts
        rw [Bool.and_eq_true] at cuts
        exact ⟨nofun, fun _ => cuts.1, List.length_modify ..⟩
      · exact .join (List.length_modify ..)
    · split
      · rename_i free
        exact .free _ free
      · exact .join rfl

theorem after_eq_start_of_isFree (free : (c.after (.start c) steps).isFree = true) :
    c.after (.start c) steps = .start c := by
  have length (k : Context) : (c.after k steps).nesting.length = k.nesting.length := by
    clear free
    induction steps generalizing k with
    | nil => rfl
    | cons x steps inductionHypothesis =>
      exact (inductionHypothesis _).trans (fits_turn c k x).length
  replace length := (length (.start c)).trans (List.length_map _)
  generalize c.after (.start c) steps = k at free length
  obtain ⟨nesting, quoted⟩ := k
  simp only [Context.isFree, Bool.and_eq_true, Bool.not_eq_true', List.all_eq_true,
    decide_eq_true_eq] at free
  obtain ⟨rfl, closed⟩ := free
  have nothing : nesting = List.replicate c.openBrackets.length 0 :=
    List.eq_replicate_iff.2 ⟨length, closed⟩
  rw [Context.start, List.map_const', nothing]

end

/-! ## Tokens of turns -/

/-- The token of what was read, if it is kept. -/
def Config.emitted (c : Config) (text : List Char) : List (List Char) :=
  let text := if c.trims then trim text else text
  if text.isEmpty && !c.keepsEmpty then [] else [text]

/-- The tokens of turns behind a text that was read into the same token. -/
def Config.assemble (c : Config) : (reading : List Char) → List (Step × Effect) → List (List Char)
  | reading, [] => c.emitted reading
  | reading, (x, .join) :: turns => c.assemble (reading ++ x.text) turns
  | reading, (x, .opens) :: turns => c.emitted reading ++ c.assemble x.text turns
  | reading, (x, .closes) :: turns => c.emitted (reading ++ x.text) ++ c.assemble [] turns
  | reading, (x, .alone) :: turns => c.emitted reading ++ x.text :: c.assemble [] turns
  | reading, (x, .gap) :: turns => c.emitted reading ++ c.emitted x.text ++ c.assemble [] turns
  | reading, (_, .drop) :: turns => c.emitted reading ++ c.assemble [] turns

namespace State

def context (s : State) : Context := ⟨s.nesting, s.quoted⟩

def perform (c : Config) (s : State) (text : List Char) : Effect → State
  | .join => s.push text
  | .opens => (s.close c).push text
  | .closes => (s.push text).close c
  | .alone => { s.close c with finished := text :: (s.close c).finished }
  | .gap => (s.close c).emit c text
  | .drop => s.close c

def take (c : Config) (s : State) (text : List Char) (turn : Effect × Context) : State :=
  { s.perform c text turn.1 with nesting := turn.2.nesting, quoted := turn.2.quoted }

variable (c : Config) (s : State) (text : List Char)

theorem emit_eq : s.emit c text =
    { s with finished := (c.emitted text).reverse ++ s.finished } := by
  unfold emit Config.emitted
  generalize (if c.trims then trim text else text) = kept
  dsimp only
  split <;> rfl

theorem close_eq : s.close c =
    { s with finished := (c.emitted s.reading.reverse).reverse ++ s.finished, reading := [] } := by
  rw [close, emit_eq]

theorem take_context (e : Effect) : s.take c text (e, s.context) = s.perform c text e := by
  cases e <;> simp only [take, perform, push, close_eq, emit_eq, context]

theorem cut_eq (sets : Membership) : s.cut c text sets = s.perform c text sets.effect := by
  unfold cut Membership.effect
  split
  · rfl
  split
  · rfl
  split
  · rfl
  split <;> rfl

theorem enter_eq (sets : Membership) (pair : Nat) : s.enter c text sets pair =
    s.take c text (if s.context.isFree && sets.breakBefore then .opens else .join,
      s.context.enter pair) := by
  have same : s.cutsHere = s.context.isFree := rfl
  rw [enter, same]
  split
  · simp only [take, perform, close_eq]
    rfl
  · rfl

theorem leave_eq (sets : Membership) (pair : Nat) : s.leave c text sets pair =
    s.take c text (if (s.context.leave pair).isFree && sets.breakAfter then .closes else .join,
      s.context.leave pair) := by
  have same : ({ s with nesting := s.nesting.modify pair (· - 1) }.push text).cutsHere =
    (s.context.leave pair).isFree := rfl
  rw [leave, same]
  split
  · simp only [take, perform, close_eq]
    rfl
  · rfl

theorem readSymbol_eq (sets : Membership) :
    s.readSymbol c text sets = s.take c text (sets.turn s.context) := by
  have same : s.context.quoted = s.quoted := rfl
  rw [readSymbol, Membership.turn, same]
  split
  · rfl
  split
  · rfl
  cases sets.opens with
  | some pair => exact enter_eq c s text sets pair
  | none =>
    cases sets.closes with
    | some pair => exact leave_eq c s text sets pair
    | none =>
      have free : s.cutsHere = s.context.isFree := rfl
      dsimp only
      rw [take_context, free]
      split
      · exact cut_eq c s text sets
      · rfl

theorem read_eq (x : Step) : s.read c x = s.take c x.text (c.turn s.context x) := by
  cases x with
  | symbol found => exact readSymbol_eq c s _ _
  | plain x =>
    have free : s.cutsHere = s.context.isFree := rfl
    rw [Config.turn, take_context, read, readPlain, free]
    split <;> rfl

/-- The tokens of a state with turns that are still to be taken. -/
theorem finished_take (turn : Effect × Context) (x : Step) (turns : List (Step × Effect)) :
    (s.take c x.text turn).finished.reverse ++
        c.assemble (s.take c x.text turn).reading.reverse turns =
      s.finished.reverse ++ c.assemble s.reading.reverse ((x, turn.1) :: turns) := by
  obtain ⟨e, k⟩ := turn
  cases e <;>
    simp [take, perform, push, close_eq, emit_eq, Config.assemble]

end State

variable (t : Tokenizer)

theorem tokens_eq_assemble (text : List Char) : t.tokens text =
    t.config.assemble [] (t.config.turns (.start t.config) (t.steps text)) := by
  have whole (steps : List Step) (s : State) :
      ((steps.foldl (State.read t.config) s).close t.config).finished.reverse =
        s.finished.reverse ++
          t.config.assemble s.reading.reverse (t.config.turns s.context steps) := by
    induction steps generalizing s with
    | nil => simp [State.close_eq, Config.turns, Config.assemble]
    | cons x steps inductionHypothesis =>
      rw [List.foldl_cons, inductionHypothesis, State.read_eq, Config.turns, ← State.finished_take]
      rfl
  rw [tokens, run_eq_foldl, whole]
  rfl

/-- What holds of every token and its text, and of texts and tokens that are put together, holds of
    a text and its tokens if nothing is dropped. -/
theorem assemble_induction {R : List Char → List (List Char) → Prop} {c : Config}
    (append : ∀ {text rest : List Char} {tokens more : List (List Char)}, R text tokens →
      R rest more → R (text ++ rest) (tokens ++ more))
    (emitted : ∀ text, R text (c.emitted text)) (single : ∀ text, R text [text])
    {turns : List (Step × Effect)} (keeps : ∀ turn ∈ turns, turn.2 ≠ .drop) (reading : List Char) :
    R (reading ++ Step.texts (turns.map Prod.fst)) (c.assemble reading turns) := by
  induction turns generalizing reading with
  | nil => simpa [Config.assemble] using emitted reading
  | cons turn turns inductionHypothesis =>
    obtain ⟨x, e⟩ := turn
    rw [List.forall_mem_cons] at keeps
    obtain ⟨kept, keeps⟩ := keeps
    have rest := inductionHypothesis keeps
    rw [List.map_cons, Step.texts_cons]
    cases e with
    | join => simpa [Config.assemble] using rest (reading ++ x.text)
    | opens => exact append (emitted reading) (rest x.text)
    | closes =>
      rw [← List.append_assoc]
      exact append (emitted (reading ++ x.text)) (rest [])
    | alone => exact append (emitted reading) (append (single x.text) (rest []))
    | gap =>
      rw [← List.append_assoc]
      exact append (append (emitted reading) (emitted x.text)) (rest [])
    | drop => exact absurd rfl kept

end Abacus.Tokenizer
