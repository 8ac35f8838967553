import Abacus.Grammar.Standard
import Abacus.Proofs.Parse.Cutting
import Abacus.Proofs.Parse.Spelling
import Abacus.Proofs.Tokens.Brackets

/-!
# Parentheses are checked once

The parser checks the parentheses of a line before it reads it and never again.  The checked parser
checks every text at each stage that it is handed to, with the counters of the tokenizers and of the
splitter of arguments, and the two give the same: no check fails behind the first one.
-/

namespace Abacus.Parse

open Fallible Text Tokenizer

/-! ## A parser that checks what it is handed -/

/-- What a text is handed to. -/
inductive Stage where
  /-- It is parsed by itself: a line, the interior of a container or an argument. -/
  | line
  /-- It is tried as an operand. -/
  | operand
  /-- It is cut around symbols. -/
  | token
  /-- It is cut around parentheses. -/
  | segment
  /-- It was cut off around parentheses. -/
  | fragment
  /-- It stands in the parentheses of a call and is split at commas. -/
  | arguments

/-- Whether the parentheses of a text are in order for a stage: they pair up, a counter that counts
    them does not saturate, and what starts with one that was cut off is a container. -/
def Cuts.accepts (cuts : Cuts) (stage : Stage) (text : List Char) : Bool :=
  balanced text && match stage with
    | .line => cuts.atBlanks.steady text
    | .operand => true
    | .token => cuts.aroundSymbols.steady text
    | .segment => cuts.aroundParens.steady text
    | .fragment => text.head? != some '(' || (betweenParens? text).isSome
    | .arguments => splitAtCommas? 0 text == some (splitAtCommas 0 text)

/-- Fails unless the parentheses of a text are in order for a stage. -/
def Cuts.expect (cuts : Cuts) (stage : Stage) (text : List Char) : Parsing Unit :=
  if cuts.accepts stage text then pure () else throw (.unbalanced (String.ofList text))

/-! The functions of the parser with a check in front of each use of a text. -/

namespace Checked

variable (scope : Scope) (cuts : Cuts) (nested : NestedParser)

def operand? (text : List Char) : Parsing (Option Expr) := do
  cuts.expect .operand text
  match betweenParens? (text.dropWhile (· ≠ '(')) with
  | some inner => cuts.expect .arguments inner
  | none => pure ()
  Parse.operand? scope nested text

def fragmentItem (fragment : List Char) : Parsing Item := do
  cuts.expect .fragment fragment
  match ← operand? scope cuts nested fragment with
  | some e => return .operand e
  | none => throw (.unrecognized (String.ofList fragment))

def segmentItems (segment : List Char) : Parsing (List Item) := do
  match scope.grammar.roles? (String.ofList segment) with
  | some roles => return [.symbol (String.ofList segment) roles]
  | none =>
    match ← operand? scope cuts nested segment with
    | some e => return [.operand e]
    | none =>
      cuts.expect .segment segment
      (cuts.aroundParens.tokens segment).mapM (fragmentItem scope cuts nested)

def tokenItems : List Char × Option Expr → Parsing (List Item)
  | (_, some e) => return [.operand e]
  | (token, none) => do
    cuts.expect .token token
    return (← (cuts.aroundSymbols.tokens token).mapM (segmentItems scope cuts nested)).flatten

def parseWith (wholeLine : Bool) (text : List Char) : Parsing (Option Expr) := do
  cuts.expect .line text
  let entries ← (cuts.atBlanks.tokens text).mapM fun token => do
    return (token, ← operand? scope cuts nested token)
  match entries with
  | [] => return none
  | [(_, some e)] => return some e
  | entries =>
    readItems scope (scope.leadingOf wholeLine text)
      (← entries.mapM (tokenItems scope cuts nested)).flatten

/-- Fails also where the depth does not suffice. -/
def parseToDepth : (depth : Nat) → (wholeLine : Bool) → NestedParser
  | 0, _, text => throw (.unbalanced (String.ofList text))
  | depth + 1, wholeLine, text => parseWith scope cuts (parseToDepth depth false) wholeLine text

/-- Parses a line, checking each text at each stage. -/
def parse (line : String) : Except ParseError Parsed := do
  let text := line.toList
  if !balanced text then throw (.unbalanced line)
  let cuts ← Cuts.ofGrammar scope.grammar
  let (expr, created) ← (parseToDepth scope cuts (text.count '(' + 1) true text).run ∅
  return { expr, created }

end Checked

/-! ## Tokenizers of a grammar without parentheses in its symbols -/

/-- Whether the tokenizers of a grammar count parentheses as the text has them. -/
structure Cuts.Counts (cuts : Cuts) : Prop where
  atBlanks : cuts.atBlanks.config.Counts
  aroundSymbols : cuts.aroundSymbols.config.Counts
  aroundParens : cuts.aroundParens.config.Isolates

theorem counts_of_ofGrammar {g : Grammar} {cuts : Cuts}
    (plain : ∀ symbol ∈ g.symbols, '(' ∉ symbol.toList ∧ ')' ∉ symbol.toList)
    (made : Cuts.ofGrammar g = .ok cuts) : cuts.Counts := by
  cases made
  refine ⟨⟨rfl, rfl, rfl, rfl, ?_⟩, ⟨rfl, rfl, rfl, rfl, ?_⟩,
    ⟨⟨rfl, rfl, rfl, rfl, ?_⟩, rfl, rfl, rfl, rfl, rfl⟩⟩
  · simp [Config.symbols, parenConfig]
  · intro symbol member
    have cases : symbol ∈ g.roles.keys ∨ symbol = "(" ∨ symbol = ")" := by
      simpa [Config.symbols, parenConfig] using member
    rcases cases with registered | rfl | rfl
    · exact .inr (.inr (plain symbol ((List.mergeSort_perm ..).mem_iff.2 registered)))
    · exact .inl rfl
    · exact .inr (.inl rfl)
  · simp [Config.symbols, parenConfig]

theorem shallow_of_mem_tokens {t : Tokenizer} (counts : t.config.Counts) {text token : List Char}
    {depth : Nat} (shallow : text.count '(' ≤ depth) (member : token ∈ t.tokens text) :
    token.count '(' ≤ depth := by
  have spaced := t.spaced_tokens counts.delimiters text
  exact Nat.le_trans ((spaced.sublist token member).count_le '(') shallow

/-! ## Refusals that are not about parentheses -/

def Tolerates {α : Type} (result : Except ParseError α) : Prop :=
  ∀ text, result ≠ .error (.unbalanced text)

namespace Tolerates

variable {α β : Type}

theorem ok (a : α) : Tolerates (.ok a) := nofun

theorem bind {x : Except ParseError α} {f : α → Except ParseError β} (first : Tolerates x)
    (second : ∀ a, Tolerates (f a)) : Tolerates (x >>= f) := by
  intro text failed
  rcases bind_eq_error.1 failed with failed | ⟨a, _, failed⟩
  · exact first text failed
  · exact second a text failed

theorem mapM {f : α → Except ParseError β} (each : ∀ a, Tolerates (f a)) (as : List α) :
    Tolerates (as.mapM f) := by
  induction as with
  | nil => exact .ok _
  | cons a rest inductionHypothesis =>
    rw [List.mapM_cons]
    exact .bind (each a) fun _ => .bind inductionHypothesis fun _ => .ok _

end Tolerates

section

variable {inner : List Part → Except ParseError Expr} (groups : ∀ parts, Tolerates (inner parts))

include groups

theorem tolerates_modify (m : Modifier) (operand : List Part) :
    Tolerates (modify inner m operand) := by
  unfold modify
  split
  · exact nofun
  · intro text failed
    exact groups operand text (map_eq_error.1 failed)

theorem tolerates_groupBefore (row : Nat) (parts : List Part) :
    Tolerates (groupBefore inner row parts) := by
  induction parts with
  | nil => exact .ok _
  | cons p parts inductionHypothesis =>
    refine .bind inductionHypothesis fun rest => ?_
    split
    · exact .ok _
    · exact .bind (tolerates_modify groups _ _) fun _ => .ok _

theorem tolerates_groupAfter (row : Nat) (left parts : List Part) :
    Tolerates (groupAfter inner row left parts) := by
  induction parts generalizing left with
  | nil => exact .ok _
  | cons p parts inductionHypothesis =>
    rw [groupAfter]
    split
    · exact inductionHypothesis _
    · exact .bind (tolerates_modify groups _ _) fun _ => inductionHypothesis _

end

theorem tolerates_groupTiers (tiers : List Tier) (row : Nat) (parts : List Part) :
    Tolerates (groupTiers tiers row parts) := by
  induction tiers generalizing row parts with
  | nil =>
    rw [groupTiers]
    unfold single
    split
    · exact .ok _
    · exact .ok _
    · exact .ok _
    · intro text failed
      cases failed
  | cons tier tighter inductionHypothesis =>
    cases tier with
    | operators associativity members =>
      exact .bind (inductionHypothesis _ _) fun _ => .bind
        (.mapM (fun _ => .bind (inductionHypothesis _ _) fun _ => .ok _) _) fun _ => .ok _
    | modifiers side entries =>
      cases side with
      | before =>
        exact .bind (tolerates_groupBefore (inductionHypothesis _) _ _) fun _ =>
          inductionHypothesis _ _
      | after =>
        exact .bind (tolerates_groupAfter (inductionHypothesis _) _ _ _) fun _ =>
          inductionHypothesis _ _

theorem tolerates_decideRoles (afterOperand : Bool) (items : List Item) :
    Tolerates (decideRoles afterOperand items) := by
  induction items generalizing afterOperand with
  | nil => exact .ok _
  | cons item rest inductionHypothesis =>
    have first : Tolerates (decideItem afterOperand rest.head? item) := by
      unfold decideItem
      split
      · split <;> exact nofun
      · exact .ok _
    exact .bind first fun _ => .bind (inductionHypothesis _) fun _ => .ok _

/-! ## Parsers that no check stops -/

/-- Whether a checked parser gives what another one gives, which satisfies `P`, and no text is
    refused for its parentheses. -/
def Parsing.Confirms {α : Type} (P : α → Prop) (checked m : Parsing α) : Prop :=
  ∀ created, checked.run created = m.run created ∧
    (∀ a after, m.run created = .ok (a, after) → P a) ∧ Tolerates (m.run created)

namespace Parsing

variable {α β : Type} {P : α → Prop} {Q : β → Prop}

theorem Confirms.result {a : α} (good : P a) : Confirms P (pure a) (pure a) := by
  refine fun created => ⟨rfl, fun b after ends => ?_, nofun⟩
  cases ends
  exact good

theorem Confirms.failure {cause : ParseError} (other : ∀ text, cause ≠ .unbalanced text) :
    Confirms P (throw cause) (throw cause) := by
  refine fun created => ⟨rfl, nofun, fun text failed => ?_⟩
  cases failed
  exact other text rfl

theorem Confirms.bind {checked m : Parsing α} {f g : α → Parsing β} (first : Confirms P checked m)
    (second : ∀ a, P a → Confirms Q (f a) (g a)) : Confirms Q (checked >>= f) (m >>= g) := by
  intro created
  obtain ⟨same, good, tolerates⟩ := first created
  rw [StateT.run_bind, StateT.run_bind, same]
  cases ends : m.run created with
  | error cause =>
    rw [ends] at tolerates
    exact ⟨rfl, nofun, fun text failed => tolerates text (by cases failed; rfl)⟩
  | ok result =>
    obtain ⟨a, after⟩ := result
    exact second a (good a after ends) after

theorem Confirms.weaken {Q : α → Prop} {checked m : Parsing α} (confirms : Confirms P checked m)
    (weaker : ∀ a, P a → Q a) : Confirms Q checked m := fun created =>
  ⟨(confirms created).1, fun a after ends => weaker a ((confirms created).2.1 a after ends),
    (confirms created).2.2⟩

theorem Confirms.mapM {f g : α → Parsing β} {as : List α}
    (each : ∀ a ∈ as, Confirms Q (f a) (g a)) :
    Confirms (fun bs => ∀ b ∈ bs, Q b) (as.mapM f) (as.mapM g) := by
  induction as with
  | nil => exact .result (List.forall_mem_nil _)
  | cons a rest inductionHypothesis =>
    rw [List.forall_mem_cons] at each
    rw [List.mapM_cons, List.mapM_cons]
    exact .bind each.1 fun b good => .bind (inductionHypothesis each.2) fun bs others =>
      .result (List.forall_mem_cons.2 ⟨good, others⟩)

theorem Confirms.ofExcept {x : Except ParseError α} (tolerates : Tolerates x) :
    Confirms (fun _ => True) (liftM x) (liftM x) := by
  refine fun created => ⟨rfl, fun _ _ _ => True.intro, fun text failed => ?_⟩
  cases x with
  | ok a => cases failed
  | error cause =>
    cases failed
    exact tolerates text rfl

theorem Confirms.expect {cuts : Cuts} {stage : Stage} {text : List Char}
    (accepts : cuts.accepts stage text) {checked m : Parsing α} (confirms : Confirms P checked m) :
    Confirms P (cuts.expect stage text >>= fun _ => checked) m := by
  rw [Cuts.expect, if_pos accepts, pure_bind]
  exact confirms

end Parsing

open Parsing

theorem cell_confirms (scope : Scope) (name : String) :
    Confirms (fun _ => True) (scope.cell name) (scope.cell name) := by
  have reads : Confirms (fun _ => True) (get : Parsing (Table String Cell)) get :=
    fun _ => ⟨rfl, fun _ _ _ => True.intro, nofun⟩
  refine .bind reads fun created _ => ?_
  split
  · exact .result True.intro
  · have writes (created : Table String Cell) :
        Confirms (fun _ => True) (set created : Parsing PUnit) (set created) :=
      fun _ => ⟨rfl, fun _ _ _ => True.intro, nofun⟩
    exact .bind (writes _) fun _ _ => .result True.intro

section

variable {scope : Scope} {cuts : Cuts} {checked nested : NestedParser} {depth : Nat}
  (inside : ∀ text, balanced text → text.count '(' < depth →
    Confirms (fun _ => True) (checked text) (nested text))

include inside

theorem call?_confirms {text : List Char} (shallow : text.count '(' ≤ depth) :
    Confirms (fun _ => True) (call? scope checked text) (call? scope nested text) := by
  unfold call?
  dsimp only
  split
  · exact .result True.intro
  · rename_i inner between
    have pairs := balanced_of_betweenParens? between
    split
    · exact .result True.intro
    split
    · exact .result True.intro
    have whole := List.takeWhile_append_dropWhile (p := (· ≠ '(')) (l := text)
    rw [eq_of_betweenParens? between] at whole
    rw [← whole] at shallow
    simp only [List.count_append, List.count_cons_self] at shallow
    have argument (text : List Char) (member : text ∈ argumentTexts inner) :
        Confirms (fun _ => True) (do return (← checked text).getD .void)
          (do return (← nested text).getD .void) := by
      have fewer := (sublist_of_argumentTexts member).count_le '('
      exact .bind (inside text (balanced_of_mem_argumentTexts pairs member) (by omega))
        fun _ _ => .result True.intro
    exact .bind (.mapM argument) fun _ _ => .result True.intro

theorem operand?_confirms {text : List Char} (pairs : balanced text)
    (shallow : text.count '(' ≤ depth) :
    Confirms (fun _ => True) (Checked.operand? scope cuts checked text)
      (operand? scope nested text) := by
  have tried : Confirms (fun _ => True) (operand? scope checked text)
      (operand? scope nested text) := by
    unfold operand?
    split
    · exact .result True.intro
    split
    · rename_i inner between
      have fewer : inner.count '(' < depth := by
        rw [eq_of_betweenParens? between, List.count_cons_self, List.count_append] at shallow
        omega
      exact .bind (inside inner (balanced_of_betweenParens? between) fewer)
        fun _ _ => .result True.intro
    split
    · exact .bind (cell_confirms scope _) fun _ _ => .result True.intro
    · exact call?_confirms inside shallow
  refine .expect (by simp [Cuts.accepts, pairs]) ?_
  dsimp only
  split
  · rename_i inner between
    have pairs := balanced_of_betweenParens? between
    have counts : splitAtCommas? 0 inner = some (splitAtCommas 0 inner) :=
      splitAtCommas?_of_depth? (by rw [balanced_iff.1 pairs]; rfl)
    exact .expect (by simp [Cuts.accepts, pairs, counts]) tried
  · exact tried

/-! ## Lines -/

theorem fragmentItem_confirms {fragment : List Char} (pairs : balanced fragment)
    (shallow : fragment.count '(' ≤ depth) (apart : Tokenizer.Apart fragment) :
    Confirms (fun _ => True) (Checked.fragmentItem scope cuts checked fragment)
      (fragmentItem scope nested fragment) := by
  have accepts : cuts.accepts .fragment fragment := by
    rcases apart with outside | container
    · have first : fragment.head? ≠ some '(' := fun head => outside (List.mem_of_head? head)
      simp [Cuts.accepts, pairs, first]
    · simp [Cuts.accepts, pairs, container]
  refine .expect accepts (.bind (operand?_confirms inside pairs shallow) fun e _ => ?_)
  cases e with
  | some e => exact .result True.intro
  | none => exact .failure nofun

theorem segmentItems_confirms (counts : cuts.Counts) {segment : List Char}
    (pairs : balanced segment) (shallow : segment.count '(' ≤ depth) :
    Confirms (fun _ => True) (Checked.segmentItems scope cuts checked segment)
      (segmentItems scope cuts nested segment) := by
  unfold Checked.segmentItems segmentItems
  cases scope.grammar.roles? (String.ofList segment) with
  | some roles => exact .result True.intro
  | none =>
    refine .bind (operand?_confirms inside pairs shallow) fun e _ => ?_
    cases e with
    | some e => exact .result True.intro
    | none =>
      have isolates := counts.aroundParens
      have steady := steady_of_balanced isolates.toCounts pairs
      have fragments (fragment : List Char)
          (member : fragment ∈ cuts.aroundParens.tokens segment) :
          Confirms (fun _ => True) (Checked.fragmentItem scope cuts checked fragment)
            (fragmentItem scope nested fragment) :=
        fragmentItem_confirms inside
          (balanced_of_mem_tokens isolates.toCounts pairs fragment member)
          (shallow_of_mem_tokens isolates.toCounts shallow member)
          (apart_of_mem_tokens isolates pairs fragment member)
      exact .expect (by simp [Cuts.accepts, pairs, steady])
        ((Confirms.mapM fragments).weaken fun _ _ => True.intro)

theorem tokenItems_confirms (counts : cuts.Counts) {token : List Char × Option Expr}
    (pairs : balanced token.1) (shallow : token.1.count '(' ≤ depth) :
    Confirms (fun _ => True) (Checked.tokenItems scope cuts checked token)
      (tokenItems scope cuts nested token) := by
  obtain ⟨text, e⟩ := token
  cases e with
  | some e => exact .result True.intro
  | none =>
    have steady := steady_of_balanced counts.aroundSymbols pairs
    have segments (segment : List Char) (member : segment ∈ cuts.aroundSymbols.tokens text) :
        Confirms (fun _ => True) (Checked.segmentItems scope cuts checked segment)
          (segmentItems scope cuts nested segment) :=
      segmentItems_confirms inside counts
        (balanced_of_mem_tokens counts.aroundSymbols pairs segment member)
        (shallow_of_mem_tokens counts.aroundSymbols shallow member)
    exact .expect (by simp [Cuts.accepts, pairs, steady])
      (.bind (.mapM segments) fun _ _ => .result True.intro)

omit inside in
theorem readItems_confirms (leading : Option Expr) (items : List Item) :
    Confirms (fun _ => True) (readItems scope leading items) (readItems scope leading items) := by
  have decided : Tolerates ((Line.ofList items).decide scope.grammar) :=
    .bind (tolerates_decideRoles _ _) fun _ => .ok _
  exact .bind (.ofExcept decided) fun l _ =>
    .bind (.ofExcept (tolerates_groupTiers _ _ _)) fun _ _ => .result True.intro

theorem parseWith_confirms (counts : cuts.Counts) (wholeLine : Bool) {text : List Char}
    (pairs : balanced text) (shallow : text.count '(' ≤ depth) :
    Confirms (fun _ => True) (Checked.parseWith scope cuts checked wholeLine text)
      (parseWith scope cuts nested wholeLine text) := by
  have steady := steady_of_balanced counts.atBlanks pairs
  have inherits (token : List Char) (member : token ∈ cuts.atBlanks.tokens text) :
      balanced token ∧ token.count '(' ≤ depth :=
    ⟨balanced_of_mem_tokens counts.atBlanks pairs token member,
      shallow_of_mem_tokens counts.atBlanks shallow member⟩
  have tried (token : List Char) (member : token ∈ cuts.atBlanks.tokens text) :
      Confirms (fun entry => balanced entry.1 ∧ entry.1.count '(' ≤ depth)
        (do return (token, ← Checked.operand? scope cuts checked token))
        (do return (token, ← operand? scope nested token)) :=
    .bind (operand?_confirms inside (inherits token member).1 (inherits token member).2)
      fun _ _ => .result (inherits token member)
  rw [parseWith_eq]
  refine .expect (by simp [Cuts.accepts, pairs, steady]) ?_
  refine .bind (.mapM tried) fun entries each => ?_
  have items : Confirms (fun _ => True)
      (do
        let items := (← entries.mapM (Checked.tokenItems scope cuts checked)).flatten
        readItems scope (scope.leadingOf wholeLine text) items)
      (readEntries scope cuts nested (scope.leadingOf wholeLine text) entries) :=
    .bind (.mapM fun entry member => tokenItems_confirms inside counts
      (each entry member).1 (each entry member).2) fun _ _ => readItems_confirms _ _
  match entries with
  | [] => exact .result True.intro
  | [(_, some e)] => exact .result True.intro
  | [(_, none)] | (_, some _) :: _ :: _ | (_, none) :: _ :: _ => exact items

end

theorem parseToDepth_confirms (scope : Scope) {cuts : Cuts} (counts : cuts.Counts) (depth : Nat)
    (wholeLine : Bool) {text : List Char} (pairs : balanced text)
    (shallow : text.count '(' < depth) :
    Confirms (fun _ => True) (Checked.parseToDepth scope cuts depth wholeLine text)
      (parseToDepth scope cuts depth wholeLine text) := by
  induction depth generalizing wholeLine text with
  | zero => exact absurd shallow (Nat.not_lt_zero _)
  | succ depth inductionHypothesis =>
    exact parseWith_confirms (fun _ => inductionHypothesis false) counts wholeLine pairs
      (Nat.le_of_lt_succ shallow)

/-! ## Main result -/

theorem Checked.parse_eq {scope : Scope} {cuts : Cuts}
    (made : Cuts.ofGrammar scope.grammar = .ok cuts) (line : String) :
    Checked.parse scope line = if balanced line.toList then
      ((Checked.parseToDepth scope cuts (line.toList.count '(' + 1) true line.toList).run ∅).map
        fun result => ⟨result.1, result.2⟩
      else .error (.unbalanced line) := by
  unfold Checked.parse
  dsimp only
  cases balanced line.toList with
  | false => rfl
  | true =>
    rw [Bool.not_true, if_neg Bool.false_ne_true, if_pos rfl, made]
    rfl

/-- In a grammar without parentheses in its symbols a line is refused for its parentheses exactly if
    they do not pair up.  If they do, every text that the parser comes to at any depth is in order
    at its stage, as no check of the checked parser fails. -/
theorem parentheses_checked_once {scope : Scope}
    (plain : ∀ symbol ∈ scope.grammar.symbols, '(' ∉ symbol.toList ∧ ')' ∉ symbol.toList)
    (line : String) :
    (∀ text, parse scope line = .error (.unbalanced text) ↔
      text = line ∧ ¬ Nested (fun _ => True) line.toList) ∧
    Checked.parse scope line = parse scope line := by
  obtain ⟨cuts, made⟩ := exists_cuts scope.grammar
  have counts := counts_of_ofGrammar plain made
  cases pairs : balanced line.toList with
  | false =>
    have unpaired : ¬ Nested (fun _ => True) line.toList := fun nested => by
      rw [balanced_of_nested nested] at pairs
      cases pairs
    have refused : parse scope line = .error (.unbalanced line) := by
      rw [parse_eq made, pairs, if_neg Bool.false_ne_true]
    refine ⟨fun text => ?_, ?_⟩
    · rw [refused, Except.error.injEq, ParseError.unbalanced.injEq, eq_comm, and_iff_left unpaired]
    · rw [Checked.parse_eq made, parse_eq made, pairs]
      rfl
  | true =>
    obtain ⟨same, _, tolerates⟩ := parseToDepth_confirms scope counts
      (line.toList.count '(' + 1) true pairs (Nat.lt_add_one _) ∅
    refine ⟨fun text => ⟨fun refused => ?_, fun unpaired => ?_⟩, ?_⟩
    · rw [parse_eq made, pairs, if_pos rfl] at refused
      exact absurd (map_eq_error.1 refused) (tolerates text)
    · exact absurd (nested_of_balanced _ pairs) unpaired.2
    · rw [Checked.parse_eq made, parse_eq made, same]

/-- In the standard grammar, a line that is read through all of its parentheses and one that is
    refused for them. -/
theorem nested_line_passes_checks :
    let scope : Scope := ⟨Grammar.standard, ∅, ∅, ∅, none, 0⟩
    (∀ symbol ∈ scope.grammar.symbols, '(' ∉ symbol.toList ∧ ')' ∉ symbol.toList) ∧
      (Checked.parse scope "-(1 + (x))(2)").toOption.isSome ∧
      parse scope "(1))(" = .error (.unbalanced "(1))(") := by
  intro scope
  have plain : ∀ symbol ∈ scope.grammar.symbols, '(' ∉ symbol.toList ∧ ')' ∉ symbol.toList :=
    fun symbol member =>
      protects_symbolConfig.separators symbol ((List.mergeSort_perm ..).mem_iff.1 member)
  refine ⟨plain, ?_, ((parentheses_checked_once plain "(1))(").1 _).2 ⟨rfl, fun nested => ?_⟩⟩
  · rw [(parentheses_checked_once plain "-(1 + (x))(2)").2]
    decide +kernel
  · have pairs : balanced "(1))(".toList := balanced_of_nested nested
    revert pairs
    decide

end Abacus.Parse
