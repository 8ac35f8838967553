import Abacus.Proofs.Tokens.Scan

/-!
# The steps of a text

A tokenizer reads a text in steps: the longest symbol that stands where it is, or a single
character if none does.  Which steps these are shows in the text that they read: steps that follow
each other in a text are the steps of their own text, whatever stands around it.
-/

namespace Abacus.Tokenizer

open Text

/-- What is read at once: a symbol, or a character that starts none. -/
inductive Step where
  | symbol (found : String)
  | plain (c : Char)

def Step.text : Step → List Char
  | .symbol found => found.toList
  | .plain c => [c]

def Step.texts (steps : List Step) : List Char := steps.flatMap Step.text

@[simp] theorem Step.texts_nil : Step.texts [] = [] := rfl

@[simp] theorem Step.texts_cons (x : Step) (steps : List Step) :
    Step.texts (x :: steps) = x.text ++ Step.texts steps := List.flatMap_cons

@[simp] theorem Step.texts_append (steps more : List Step) :
    Step.texts (steps ++ more) = Step.texts steps ++ Step.texts more := List.flatMap_append

def stepAt (t : Tokenizer) (c : Char) (rest : List Char) : Step :=
  ((t.lexicon.longestSymbol? (c :: rest)).map .symbol).getD (.plain c)

/-- The steps of a text whose first `skip` characters are read already. -/
def stepsFrom (t : Tokenizer) : List Char → (skip : Nat) → List Step
  | [], _ => []
  | _ :: rest, skip + 1 => t.stepsFrom rest skip
  | c :: rest, 0 => t.stepAt c rest :: t.stepsFrom rest ((t.stepAt c rest).text.length - 1)

def steps (t : Tokenizer) (text : List Char) : List Step := t.stepsFrom text 0

def State.read (c : Config) (s : State) : Step → State
  | .symbol symbol => s.readSymbol c symbol.toList (c.membership symbol)
  | .plain x => s.readPlain c x

variable (t : Tokenizer)

theorem run_eq_foldl (text : List Char) (skip : Nat) (s : State) :
    t.run text skip s =
      ((t.stepsFrom text skip).foldl (State.read t.config) s).close t.config := by
  induction text generalizing skip s with
  | nil => rfl
  | cons c rest inductionHypothesis =>
    cases skip with
    | succ skip => exact inductionHypothesis skip s
    | zero =>
      rw [stepsFrom, List.foldl_cons, ← inductionHypothesis, stepAt]
      cases found : t.lexicon.longestSymbol? (c :: rest) with
      | none => exact run_of_plain t found s
      | some symbol => exact run_of_symbol t found s

/-! ## The step at the start -/

theorem exists_stepAt (c : Char) (rest : List Char) : ∃ tail behind,
    (t.stepAt c rest).text = c :: tail ∧ rest = tail ++ behind := by
  rw [stepAt]
  cases found : t.lexicon.longestSymbol? (c :: rest) with
  | none => exact ⟨[], rest, rfl, rfl⟩
  | some symbol =>
    obtain ⟨_, filled, ⟨behind, starts⟩, _⟩ := (longestSymbol?_eq_iff t).1 found
    cases whole : symbol.toList with
    | nil => exact absurd (String.toList_injective whole) filled
    | cons d tail =>
      rw [whole, List.cons_append, List.cons.injEq] at starts
      refine ⟨tail, behind, ?_, starts.2⟩
      change symbol.toList = c :: tail
      rw [whole, starts.1]

/-- What stands behind the first step does not matter: no other symbol is longer in a text that
    ends earlier. -/
theorem stepAt_of_append {c : Char} {tail behind more : List Char}
    (reads : (t.stepAt c (tail ++ behind ++ more)).text = c :: tail) :
    t.stepAt c (tail ++ behind) = t.stepAt c (tail ++ behind ++ more) := by
  have further {symbol : String} {rest : List Char}
      (starts : c :: (tail ++ behind) = symbol.toList ++ rest) :
      c :: (tail ++ behind ++ more) = symbol.toList ++ (rest ++ more) := by
    rw [← List.append_assoc, ← starts]
    rfl
  unfold stepAt at reads ⊢
  cases found : t.lexicon.longestSymbol? (c :: (tail ++ behind ++ more)) with
  | none =>
    have nothing : t.lexicon.longestSymbol? (c :: (tail ++ behind)) = none :=
      (longestSymbol?_eq_iff t).2 fun symbol member rest starts =>
        (longestSymbol?_eq_iff t).1 found symbol member (rest ++ more) (further starts)
    rw [nothing]
  | some symbol =>
    rw [found] at reads
    change symbol.toList = c :: tail at reads
    obtain ⟨member, filled, _, longest⟩ := (longestSymbol?_eq_iff t).1 found
    have same : t.lexicon.longestSymbol? (c :: (tail ++ behind)) = some symbol :=
      (longestSymbol?_eq_iff t).2 ⟨member, filled, ⟨behind, by rw [reads]; rfl⟩,
        fun other member' rest starts => longest other member' (rest ++ more) (further starts)⟩
    rw [same]

/-! ## Steps of a text -/

theorem stepsFrom_eq_drop (text : List Char) (skip : Nat) :
    t.stepsFrom text skip = t.steps (text.drop skip) := by
  induction text generalizing skip with
  | nil => simp [steps, stepsFrom]
  | cons c rest inductionHypothesis =>
    cases skip with
    | zero => rfl
    | succ skip => exact inductionHypothesis skip

theorem steps_cons {c : Char} {tail behind : List Char}
    (reads : (t.stepAt c (tail ++ behind)).text = c :: tail) :
    t.steps (c :: (tail ++ behind)) = t.stepAt c (tail ++ behind) :: t.steps behind := by
  rw [steps, stepsFrom, stepsFrom_eq_drop, reads, List.length_cons, Nat.add_sub_cancel,
    List.drop_left]

theorem texts_steps (text : List Char) : Step.texts (t.steps text) = text := by
  match text with
  | [] => rfl
  | c :: rest =>
    obtain ⟨tail, behind, reads, whole⟩ := t.exists_stepAt c rest
    subst whole
    rw [steps_cons t reads, Step.texts_cons, reads, texts_steps behind]
    rfl
termination_by text.length
decreasing_by
  subst whole
  simp only [List.length_cons, List.length_append]
  omega

theorem exists_stepAt_eq {text : List Char} {x : Step} (member : x ∈ t.steps text) :
    ∃ c rest, t.stepAt c rest = x := by
  rw [steps] at member
  generalize 0 = skip at member
  induction text generalizing skip with
  | nil => cases member
  | cons c rest inductionHypothesis =>
    cases skip with
    | succ skip => exact inductionHypothesis skip member
    | zero =>
      rcases List.mem_cons.1 member with first | later
      · exact ⟨c, rest, first.symm⟩
      · exact inductionHypothesis _ later

theorem mem_symbols_of_mem_steps {text : List Char} {symbol : String}
    (member : .symbol symbol ∈ t.steps text) : symbol ∈ t.config.symbols ∧ symbol ≠ "" := by
  obtain ⟨c, rest, first⟩ := t.exists_stepAt_eq member
  rw [stepAt] at first
  cases found : t.lexicon.longestSymbol? (c :: rest) with
  | none =>
    rw [found] at first
    cases first
  | some symbol' =>
    rw [found] at first
    cases first
    obtain ⟨configured, filled, _⟩ := (longestSymbol?_eq_iff t).1 found
    exact ⟨configured, filled⟩

theorem not_mem_symbols_of_plain {text : List Char} {c : Char} (member : .plain c ∈ t.steps text) :
    String.singleton c ∉ t.config.symbols := by
  intro configured
  obtain ⟨c', rest, first⟩ := t.exists_stepAt_eq member
  rw [stepAt] at first
  cases found : t.lexicon.longestSymbol? (c' :: rest) with
  | some symbol =>
    rw [found] at first
    cases first
  | none =>
    rw [found] at first
    cases first
    have starts : c :: rest = (String.singleton c).toList ++ rest := by simp
    have empty := (longestSymbol?_eq_iff t).1 found _ configured rest starts
    simpa using congrArg String.toList empty

/-- Whether steps are the steps of the text that they read. -/
def Greedy (steps : List Step) : Prop := t.steps (Step.texts steps) = steps

theorem greedy_steps (text : List Char) : t.Greedy (t.steps text) := by
  rw [Greedy, texts_steps]

variable {t} {x : Step} {steps more : List Step}

theorem greedy_cons_iff : t.Greedy (x :: steps) ↔
    (∃ c tail, x.text = c :: tail ∧ t.stepAt c (tail ++ Step.texts steps) = x) ∧
      t.Greedy steps := by
  constructor
  · intro greedy
    rw [Greedy] at greedy
    cases text : Step.texts (x :: steps) with
    | nil =>
      rw [text] at greedy
      cases greedy
    | cons c rest =>
      obtain ⟨tail, behind, reads, rfl⟩ := t.exists_stepAt c rest
      rw [text, steps_cons t reads, List.cons.injEq] at greedy
      obtain ⟨first, others⟩ := greedy
      rw [first] at reads
      rw [Step.texts_cons, reads, List.cons_append, List.cons.injEq, List.append_cancel_left_eq] at text
      rw [Greedy, text.2]
      exact ⟨⟨c, tail, reads, first⟩, others⟩
  · rintro ⟨⟨c, tail, reads, first⟩, greedy⟩
    rw [Greedy, Step.texts_cons, reads, List.cons_append, steps_cons t (first.symm ▸ reads), first,
      greedy]

theorem Greedy.of_append (greedy : t.Greedy (steps ++ more)) : t.Greedy steps ∧ t.Greedy more := by
  induction steps with
  | nil => exact ⟨rfl, greedy⟩
  | cons x steps inductionHypothesis =>
    rw [List.cons_append, greedy_cons_iff] at greedy
    obtain ⟨⟨c, tail, reads, first⟩, others⟩ := greedy
    obtain ⟨front, back⟩ := inductionHypothesis others
    rw [Step.texts_append, ← List.append_assoc] at first
    have alone := stepAt_of_append t (first.symm ▸ reads)
    exact ⟨greedy_cons_iff.2 ⟨⟨c, tail, reads, alone.trans first⟩, front⟩, back⟩

theorem Greedy.of_part (greedy : t.Greedy steps) (part : more <:+: steps) : t.Greedy more := by
  obtain ⟨before, behind, rfl⟩ := part
  exact greedy.of_append.1.of_append.2

end Abacus.Tokenizer
