import Abacus.Proofs.Tokens.Turns
import Mathlib.Data.List.Chain

/-!
# Tokens are stable

A tokenizer that keeps no empty tokens does not cut a token again.  A token starts where nothing is
open, so its steps take the turns that they took in the whole text, and these cut nowhere inside of
it.  Trimming takes only white space off its ends, which changes neither what is open nor where
the longest symbols stand.
-/

namespace Abacus.Tokenizer

open Text

/-! ## Turns of one token -/

/-- Whether no token ends between two turns. -/
def Joined (left right : Step × Effect) : Prop :=
  left.2.cutsBehind = false ∧ right.2.cutsBefore = false

/-- Turns of which none ends a token before the last of them and none drops a delimiter. -/
structure Unbroken (turns : List (Step × Effect)) : Prop where
  joined : turns.IsChain Joined
  kept : ∀ turn ∈ turns, turn.2 ≠ .drop

namespace Unbroken

variable {turns more : List (Step × Effect)} {turn : Step × Effect}

theorem nil : Unbroken [] := ⟨.nil, List.forall_mem_nil _⟩

theorem single (kept : turn.2 ≠ .drop) : Unbroken [turn] :=
  ⟨.singleton turn, List.forall_mem_singleton.2 kept⟩

theorem concat (unbroken : Unbroken turns)
    (uncut : ∀ last ∈ turns.getLast?, last.2.cutsBehind = false)
    (enters : turn.2.cutsBefore = false) (kept : turn.2 ≠ .drop) : Unbroken (turns ++ [turn]) where
  joined := List.isChain_append.2 ⟨unbroken.joined, .singleton turn,
    fun last isLast next isNext => ⟨uncut last isLast, by cases isNext; exact enters⟩⟩
  kept := List.forall_mem_append.2 ⟨unbroken.kept, List.forall_mem_singleton.2 kept⟩

theorem of_part (unbroken : Unbroken more) (part : turns <:+: more) : Unbroken turns :=
  ⟨ List.IsChain.infix unbroken.joined part, fun turn member => unbroken.kept turn (part.subset member)⟩

end Unbroken

/-- Steps that are read into one token which has not ended. -/
inductive Underway (c : Config) : List Step → Prop where
  | nil : Underway c []
  | opens {x : Step} : (c.turn (.start c) x).1 = .opens → Underway c [x]
  | join {front : List Step} {x : Step} : Underway c front →
      (c.turn (c.after (.start c) front) x).1 = .join → Underway c (front ++ [x])

variable {c : Config} {front rest : List Step} {x : Step}

theorem turns_concat : c.turns (.start c) (front ++ [x]) =
    c.turns (.start c) front ++ [(x, (c.turn (c.after (.start c) front) x).1)] := turns_append

namespace Underway

theorem uncut (underway : Underway c front) :
    ∀ last ∈ (c.turns (.start c) front).getLast?, last.2.cutsBehind = false := by
  cases underway with
  | nil => exact nofun
  | opens opens =>
    rintro last ⟨⟩
    exact congrArg Effect.cutsBehind opens
  | join _ join =>
    rw [turns_concat, List.getLast?_concat]
    rintro last ⟨⟩
    exact congrArg Effect.cutsBehind join

theorem unbroken (underway : Underway c front) : Unbroken (c.turns (.start c) front) := by
  induction underway with
  | nil => exact .nil
  | opens opens => exact .single (by rw [opens]; exact nofun)
  | join underway join inductionHypothesis =>
    rw [turns_concat, join]
    exact inductionHypothesis.concat underway.uncut rfl nofun

end Underway

section

variable (drops : c.keepsEmpty = false)

include drops

theorem emitted_nil : c.emitted [] = [] := by
  cases trims : c.trims <;> simp [Config.emitted, drops, trims]

theorem Underway.assemble (underway : Underway c front) (turns : List (Step × Effect)) :
    c.assemble [] (c.turns (.start c) front ++ turns) = c.assemble (Step.texts front) turns := by
  induction underway generalizing turns with
  | nil => rfl
  | @opens x opens =>
    rw [Config.turns, opens]
    change c.emitted [] ++ c.assemble x.text turns = _
    rw [emitted_nil drops, List.nil_append, Step.texts_cons, Step.texts_nil, List.append_nil]
  | @join front x _ join inductionHypothesis =>
    rw [turns_concat, join, List.append_assoc, inductionHypothesis, Step.texts_append,
      Step.texts_cons, Step.texts_nil, List.append_nil]
    rfl

theorem Underway.tokens (underway : Underway c front) :
    c.assemble [] (c.turns (.start c) front) = c.emitted (Step.texts front) := by
  have whole := underway.assemble drops []
  rwa [List.append_nil] at whole

theorem Underway.tokens_closes (underway : Underway c front)
    (closes : (c.turn (c.after (.start c) front) x).1 = .closes) :
    c.assemble [] (c.turns (.start c) (front ++ [x])) =
      c.emitted (Step.texts front ++ x.text) := by
  rw [turns_concat, closes, underway.assemble drops]
  change c.emitted _ ++ c.emitted [] = _
  rw [emitted_nil drops, List.append_nil]

end

/-! ## Origins -/

/-- Whether a token is one of some steps in a row that nothing cuts, read alone. -/
def Config.Contains (c : Config) (steps : List Step) (token : List Char) : Prop :=
  ∃ segment, segment <:+: steps ∧ Unbroken (c.turns (.start c) segment) ∧
    token ∈ c.assemble [] (c.turns (.start c) segment)

variable {token : List Char} {steps : List Step}

theorem Config.Contains.mono (contains : c.Contains front token) (part : front <:+: steps) :
    c.Contains steps token := by
  obtain ⟨segment, inside, found⟩ := contains
  exact ⟨segment, inside.trans part, found⟩

theorem contains_self (unbroken : Unbroken (c.turns (.start c) steps))
    (member : token ∈ c.assemble [] (c.turns (.start c) steps)) : c.Contains steps token :=
  ⟨steps, List.infix_rfl, unbroken, member⟩

theorem contains_single {e : Effect} (effect : (c.turn (.start c) x).1 = e) (kept : e ≠ .drop)
    (member : token ∈ c.assemble [] [(x, e)]) : c.Contains [x] token := by
  have turns : c.turns (.start c) [x] = [(x, e)] := by rw [← effect]; rfl
  exact contains_self (turns ▸ .single kept) (turns ▸ member)

theorem contains_of_mem (drops : c.keepsEmpty = false) (underway : Underway c front)
    (member : token ∈ c.assemble (Step.texts front) (c.turns (c.after (.start c) front) rest)) :
    c.Contains (front ++ rest) token := by
  induction rest generalizing front with
  | nil =>
    rw [List.append_nil]
    exact contains_self underway.unbroken (underway.tokens drops ▸ member)
  | cons x rest inductionHypothesis =>
    have fits := fits_turn c (c.after (.start c) front) x
    have behind : c.after (.start c) (front ++ [x]) =
      (c.turn (c.after (.start c) front) x).2 := after_append
    rw [Config.turns, ← behind] at member
    have before (found : token ∈ c.emitted (Step.texts front)) : c.Contains (front ++ x :: rest) token :=
      (contains_self underway.unbroken (underway.tokens drops ▸ found)).mono
        (List.prefix_append front (x :: rest)).isInfix
    have atStart (cuts : (c.turn (c.after (.start c) front) x).1.cutsBefore = true) :
        c.after (.start c) front = .start c := after_eq_start_of_isFree (fits.before cuts)
    have further (cuts : (c.turn (c.after (.start c) front) x).1.cutsBehind = true)
        (found : token ∈ c.assemble [] (c.turns (c.after (.start c) (front ++ [x])) rest)) :
        c.Contains (front ++ x :: rest) token := by
      have free : (c.after (.start c) (front ++ [x])).isFree = true := behind ▸ fits.behind cuts
      rw [after_eq_start_of_isFree free] at found
      exact (inductionHypothesis .nil found).mono ⟨front ++ [x], [], by simp⟩
    cases effect : (c.turn (c.after (.start c) front) x).1 with
    | join =>
      rw [effect] at member
      have reads : Step.texts front ++ x.text = Step.texts (front ++ [x]) := by simp
      change token ∈ c.assemble (Step.texts front ++ x.text) _ at member
      rw [reads] at member
      exact (inductionHypothesis (.join underway effect) member).mono (by simp)
    | opens =>
      rw [effect] at member further
      have start := atStart (effect ▸ rfl)
      rcases List.mem_append.1 member with found | found
      · exact before found
      · have reads : x.text = Step.texts [x] := by simp
        rw [start] at effect
        rw [after_append, start, reads] at found
        exact (inductionHypothesis (.opens effect) found).mono ⟨front, [], by simp⟩
    | closes =>
      rw [effect] at member further
      rcases List.mem_append.1 member with found | found
      · have unbroken : Unbroken (c.turns (.start c) (front ++ [x])) := by
          rw [turns_concat, effect]
          exact underway.unbroken.concat underway.uncut rfl (by simp)
        rw [← underway.tokens_closes drops effect] at found
        exact (contains_self unbroken found).mono ⟨[], rest, by simp⟩
      · exact further rfl found
    | alone =>
      rw [effect] at member further
      rcases List.mem_append.1 member with found | found
      · exact before found
      rcases List.mem_cons.1 found with rfl | found
      · rw [atStart (effect ▸ rfl)] at effect
        have found : x.text ∈ c.assemble [] [(x, .alone)] := by simp [Config.assemble]
        exact (contains_single effect (by simp) found).mono ⟨front, rest, by simp⟩
      · exact further rfl found
    | gap =>
      rw [effect] at member further
      rcases List.mem_append.1 member with found | found
      · rcases List.mem_append.1 found with found | found
        · exact before found
        · rw [atStart (effect ▸ rfl)] at effect
          have found : token ∈ c.assemble [] [(x, .gap)] := by simp [Config.assemble, found]
          exact (contains_single effect (by simp) found).mono ⟨front, rest, by simp⟩
      · exact further rfl found
    | drop =>
      rw [effect] at member further
      exact (List.mem_append.1 member).elim before (further rfl)

/-! ## Tokens of unbroken turns -/

theorem assemble_of_isChain (drops : c.keepsEmpty = false) {turn : Step × Effect}
    {turns : List (Step × Effect)} (joined : (turn :: turns).IsChain Joined)
    (uncut : turn.2.cutsBehind = false) (reading : List Char) :
    c.assemble reading turns = c.emitted (reading ++ Step.texts (turns.map Prod.fst)) := by
  induction turns generalizing turn reading with
  | nil => simp [Config.assemble]
  | cons next turns inductionHypothesis =>
    obtain ⟨x, e⟩ := next
    rw [List.isChain_cons_cons] at joined
    obtain ⟨⟨_, enters⟩, joined⟩ := joined
    cases e with
    | join =>
      rw [Config.assemble, inductionHypothesis joined rfl]
      simp
    | closes =>
      cases turns with
      | nil =>
        rw [Config.assemble, Config.assemble, emitted_nil drops]
        simp
      | cons => cases (List.isChain_cons_cons.1 joined).1.1
    | opens | alone | gap | drop => cases enters

/-- Unbroken turns have one token, which is kept as it is or as the configuration wants it. -/
theorem assemble_of_unbroken (drops : c.keepsEmpty = false) {turns : List (Step × Effect)}
    (unbroken : Unbroken turns) :
    c.assemble [] turns = c.emitted (Step.texts (turns.map Prod.fst)) ∨
      c.assemble [] turns = [Step.texts (turns.map Prod.fst)] := by
  obtain ⟨joined, kept⟩ := unbroken
  cases turns with
  | nil => exact .inl rfl
  | cons turn turns =>
    have last (cuts : turn.2.cutsBehind = true) : turns = [] := by
      cases turns with
      | nil => rfl
      | cons =>
        rw [(List.isChain_cons_cons.1 joined).1.1] at cuts
        cases cuts
    obtain ⟨x, e⟩ := turn
    have nothing := emitted_nil drops
    cases e with
    | join =>
      left
      rw [Config.assemble, assemble_of_isChain drops joined rfl]
      simp
    | opens =>
      left
      rw [Config.assemble, assemble_of_isChain drops joined rfl, nothing]
      simp
    | closes =>
      left
      simp [last rfl, Config.assemble, nothing]
    | alone =>
      right
      simp [last rfl, Config.assemble, nothing]
    | gap =>
      left
      simp [last rfl, Config.assemble, nothing]
    | drop => exact absurd rfl (kept _ List.mem_cons_self)

/-! ## Trimming -/

def Step.isBlank : Step → Bool
  | .symbol _ => false
  | .plain c => Text.isBlank c

theorem dropWhile_flatMap {f : Step → List Char} (plain : ∀ c, f (.plain c) = [c])
    (solid : ∀ symbol, .symbol symbol ∈ steps →
      f (.symbol symbol) ≠ [] ∧ ∀ c ∈ f (.symbol symbol), isBlank c = false) :
    (steps.flatMap f).dropWhile isBlank = (steps.dropWhile Step.isBlank).flatMap f := by
  induction steps with
  | nil => rfl
  | cons x steps inductionHypothesis =>
    have rest := inductionHypothesis fun symbol member =>
      solid symbol (List.mem_cons_of_mem x member)
    cases x with
    | plain c =>
      rw [List.flatMap_cons, plain, List.singleton_append, List.dropWhile_cons, List.dropWhile_cons,
        rest, Step.isBlank]
      split
      · rfl
      · rw [List.flatMap_cons, plain, List.singleton_append]
    | symbol symbol =>
      obtain ⟨filled, firm⟩ := solid symbol List.mem_cons_self
      obtain ⟨c, tail, whole⟩ := List.exists_cons_of_ne_nil filled
      have stops : isBlank c = false := firm c (by simp [whole])
      rw [List.dropWhile_cons_of_neg (by simp [Step.isBlank]), List.flatMap_cons, whole,
        List.cons_append, List.dropWhile_cons_of_neg (by simp [stops])]

theorem exists_texts_eq_trim (solid : ∀ symbol, .symbol symbol ∈ steps →
      symbol ≠ "" ∧ ∀ c ∈ symbol.toList, isBlank c = false) :
    ∃ lead core trail, steps = lead ++ core ++ trail ∧ (∀ x ∈ lead, x.isBlank) ∧
      Step.texts core = trim (Step.texts steps) := by
  have front : trimStart (Step.texts steps) = Step.texts (steps.dropWhile Step.isBlank) :=
    dropWhile_flatMap (fun _ => rfl) fun symbol member =>
      ⟨fun empty => (solid symbol member).1 (String.toList_injective empty), (solid symbol member).2⟩
  have whole := List.takeWhile_append_dropWhile (p := Step.isBlank) (l := steps)
  generalize inner : steps.dropWhile Step.isBlank = others at front whole
  have back : (Step.texts others).reverse.dropWhile isBlank =
      (Step.texts (others.reverse.dropWhile Step.isBlank).reverse).reverse := by
    rw [Step.texts, Step.texts, List.reverse_flatMap, List.reverse_flatMap, List.reverse_reverse]
    refine dropWhile_flatMap (fun _ => rfl) fun symbol member => ?_
    obtain ⟨filled, firm⟩ := solid symbol (whole ▸ List.mem_append_right _ (List.mem_reverse.1 member))
    refine ⟨fun empty => filled (String.toList_injective (List.reverse_eq_nil_iff.1 empty)), ?_⟩
    exact fun c inside => firm c (List.mem_reverse.1 inside)
  refine ⟨steps.takeWhile Step.isBlank, (others.reverse.dropWhile Step.isBlank).reverse,
    (others.reverse.takeWhile Step.isBlank).reverse, ?_, List.all_eq_true.1 List.all_takeWhile, ?_⟩
  · rw [List.append_assoc, ← List.reverse_append, List.takeWhile_append_dropWhile,
      List.reverse_reverse, whole]
  · rw [trim, front, trimEnd, back, List.reverse_reverse]

theorem after_of_isBlank (k : Context) (blank : ∀ x ∈ steps, x.isBlank) : c.after k steps = k := by
  induction steps with
  | nil => rfl
  | cons x steps inductionHypothesis =>
    rw [List.forall_mem_cons] at blank
    cases x with
    | symbol => cases blank.1
    | plain => exact inductionHypothesis blank.2

theorem exists_unbroken_trim (unbroken : Unbroken (c.turns (.start c) steps))
    (solid : ∀ symbol, .symbol symbol ∈ steps →
      symbol ≠ "" ∧ ∀ c ∈ symbol.toList, isBlank c = false) :
    ∃ core, core <:+: steps ∧ Unbroken (c.turns (.start c) core) ∧
      Step.texts core = trim (Step.texts steps) := by
  obtain ⟨lead, core, trail, rfl, blank, trimmed⟩ := exists_texts_eq_trim solid
  refine ⟨core, ⟨lead, trail, rfl⟩, ?_, trimmed⟩
  rw [List.append_assoc, turns_append, after_of_isBlank _ blank, turns_append] at unbroken
  exact unbroken.of_part ⟨_, _, List.append_assoc ..⟩

theorem emitted_of_mem {text : List Char} (member : token ∈ c.emitted text) :
    token = (if c.trims then trim text else text) ∧ c.emitted token = [token] := by
  have idempotent : (if c.trims then trim (if c.trims then trim text else text) else
      if c.trims then trim text else text) = if c.trims then trim text else text := by
    cases c.trims with
    | true => exact trim_trim text
    | false => rfl
  unfold Config.emitted at member ⊢
  generalize (if c.trims then trim text else text) = kept at member idempotent ⊢
  dsimp only at member
  split at member
  · cases member
  · rename_i filled
    obtain rfl := List.mem_singleton.1 member
    rw [idempotent]
    exact ⟨rfl, if_neg filled⟩

/-! ## Main result -/

variable (t : Tokenizer)

theorem tokens_texts (greedy : t.Greedy steps) :
    t.tokens (Step.texts steps) = t.config.assemble [] (t.config.turns (.start t.config) steps) := by
  rw [tokens_eq_assemble, greedy]

theorem tokens_of_mem_tokens (drops : t.config.keepsEmpty = false)
    (filled : ∀ symbol ∈ t.config.symbols, ∀ x ∈ symbol.toList, isBlank x = false)
    {text token : List Char} (member : token ∈ t.tokens text) :
    t.tokens token = [token] ∧ Unbroken (t.config.turns (.start t.config) (t.steps token)) := by
  rw [tokens_eq_assemble] at member
  obtain ⟨segment, inside, unbroken, found⟩ := contains_of_mem drops .nil member
  have greedy := (t.greedy_steps text).of_part inside
  have shape := assemble_of_unbroken drops unbroken
  rw [map_fst_turns] at shape
  rcases shape with trimmed | whole
  · rw [trimmed] at found
    obtain ⟨same, again⟩ := emitted_of_mem found
    -- The steps of the token are those of the segment without the white space at its ends.
    obtain ⟨core, within, unbroken', reads⟩ : ∃ core, core <:+: segment ∧
        Unbroken (t.config.turns (.start t.config) core) ∧ Step.texts core = token := by
      cases trims : t.config.trims with
      | false =>
        rw [trims] at same
        exact ⟨segment, List.infix_rfl, unbroken, same.symm⟩
      | true =>
        rw [trims] at same
        rw [same]
        refine exists_unbroken_trim unbroken fun symbol member => ?_
        obtain ⟨configured, named⟩ :=
          t.mem_symbols_of_mem_steps (inside.subset member)
        exact ⟨named, filled symbol configured⟩
    have greedy' := greedy.of_part within
    have shape := assemble_of_unbroken drops unbroken'
    rw [map_fst_turns, ← tokens_texts t greedy', reads, again, or_self] at shape
    rw [Greedy, reads] at greedy'
    rw [greedy']
    exact ⟨shape, unbroken'⟩
  · rw [whole, List.mem_singleton] at found
    rw [found, tokens_texts t greedy, greedy]
    exact ⟨whole, unbroken⟩

/-- Each token is the only token of its own text, and nothing inside of it cuts: no separator, no
    delimiter and no break stands there where everything is closed. -/
theorem tokenize_token (c : Config) (paired : c.openBrackets.length = c.closeBrackets.length)
    (drops : c.keepsEmpty = false)
    (filled : ∀ symbol ∈ c.symbols, ∀ x ∈ symbol.toList, isBlank x = false) :
    ∃ t, ofConfig c = .ok t ∧ ∀ text : String, ∀ token ∈ t.tokenize text,
      t.tokenize token = [token] ∧ Unbroken (c.turns (.start c) (t.steps token.toList)) := by
  refine ⟨{ config := c, paired }, dif_pos paired, fun text token member => ?_⟩
  obtain ⟨characters, among, rfl⟩ := List.mem_map.1 member
  obtain ⟨again, unbroken⟩ := tokens_of_mem_tokens _ drops filled among
  rw [tokenize, String.toList_ofList, again]
  exact ⟨rfl, unbroken⟩

theorem tokenize_token_bracket :
    let c : Config := {
      separators := ["+", "("], delimiters := [","], openBrackets := ["("], closeBrackets := [")"]
      quotes := ["|"], breaksBefore := ["(", "++"], breaksAfter := [")"], trims := true }
    c.openBrackets.length = c.closeBrackets.length ∧ c.keepsEmpty = false ∧
      (∀ symbol ∈ c.symbols, ∀ x ∈ symbol.toList, isBlank x = false) ∧
      ∃ t, ofConfig c = .ok t ∧ "(b, +)" ∈ t.tokenize "a ++ (b, +) , c" ∧
        t.tokenize "(b, +)" = ["(b, +)"] := by
  intro c
  have all : c.symbols.all fun symbol => symbol.toList.all fun x => isBlank x == false := by decide
  have filled : ∀ symbol ∈ c.symbols, ∀ x ∈ symbol.toList, isBlank x = false := by
    simpa only [List.all_eq_true, beq_iff_eq] using all
  obtain ⟨t, made, stable⟩ := tokenize_token c rfl rfl filled
  have cut : "(b, +)" ∈ t.tokenize "a ++ (b, +) , c" := by
    obtain rfl := Except.ok.inj made
    decide +kernel
  exact ⟨rfl, rfl, filled, t, made, cut, (stable _ _ cut).1⟩

end Abacus.Tokenizer
