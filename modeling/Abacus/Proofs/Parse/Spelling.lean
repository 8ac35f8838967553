import Abacus.Proofs.Parse.Commitment
import Abacus.Proofs.Parse.Creation
import Abacus.Proofs.Tokens.Spacing

/-!
# What a line spells

What a line that parses consists of, without regard to how the parser finds it: operands and
symbols with nothing but white space around them, in the order of the line.  They are
committed to their roles and grouped, and the expression reads as the committed items.  The
texts in the parentheses of an operand spell what stands in the expression in the same way.
-/

namespace Abacus.Parse

open Fallible Text Tokenizer

mutual

/-- A text is an operand; `final` holds the variables that the whole line creates. -/
inductive SpellsOperand (scope : Scope) (final : Table String Cell) : List Char → Expr → Prop where
  | number {text : List Char} {a : Number} : Number.ofText? text = some a →
      SpellsOperand scope final text (.literal (some a))
  | name {text : List Char} {c : Cell} : Lexeme.isName text →
      scope.grammar.isSymbol (String.ofList text) = false →
      scope.lookup final (String.ofList text) = some c → SpellsOperand scope final text (.cell c)
  | parens {inner : List Char} {e : Option Expr} : Spells scope final false inner e →
      SpellsOperand scope final ('(' :: (inner ++ [')'])) (.parens (e.getD .void))
  | call {name inner : List Char} {f : Function} {arguments : List Expr} : Lexeme.isName name →
      SpellsArguments scope final (argumentTexts inner) arguments →
      scope.functions.get? (String.ofList name, arguments.length) = some f →
      SpellsOperand scope final (name ++ '(' :: (inner ++ [')'])) (.call f arguments)

/-- Texts are the arguments of a call; a blank one is void. -/
inductive SpellsArguments (scope : Scope) (final : Table String Cell) :
    List (List Char) → List Expr → Prop where
  | nil : SpellsArguments scope final [] []
  | cons {text : List Char} {texts : List (List Char)} {e : Option Expr} {arguments : List Expr} :
      Spells scope final false text e → SpellsArguments scope final texts arguments →
      SpellsArguments scope final (text :: texts) (e.getD .void :: arguments)

/-- A text consists of operands and symbols in order, with nothing but white space around them. -/
inductive SpellsItems (scope : Scope) (final : Table String Cell) : List Char → List Item → Prop where
  | blank {text : List Char} : allBlank text → SpellsItems scope final text []
  | operand {space text rest : List Char} {e : Expr} {items : List Item} : allBlank space →
      SpellsOperand scope final text e → SpellsItems scope final rest items →
      SpellsItems scope final (space ++ (text ++ rest)) (.operand e :: items)
  | symbol {space text rest : List Char} {roles : Roles} {items : List Item} : allBlank space →
      scope.grammar.roles? (String.ofList text) = some roles → SpellsItems scope final rest items →
      SpellsItems scope final (space ++ (text ++ rest)) (.symbol (String.ofList text) roles :: items)

/-- A text is blank, or its items are committed to roles and grouped into an expression that reads
    as the committed items.  Only a whole line continues from an earlier one. -/
inductive Spells (scope : Scope) (final : Table String Cell) :
    (wholeLine : Bool) → List Char → Option Expr → Prop where
  | blank {wholeLine : Bool} {text : List Char} : allBlank text → Spells scope final wholeLine text none
  | line {wholeLine : Bool} {text : List Char} {items committed : List Item} {e : Expr} :
      allBlank text = false → SpellsItems scope final text items →
      Commits scope.grammar (scope.leadingOf wholeLine text) items committed →
      groupTiers scope.grammar.tiers 0 (committed.map .item) = .ok e →
      e.written scope.grammar = committed → Spells scope final wholeLine text (some e)

end

section

variable {scope : Scope} {final : Table String Cell}

/-! ## Items -/

theorem SpellsItems.prepend {space text : List Char} {items : List Item} (blank : allBlank space)
    (spells : SpellsItems scope final text items) : SpellsItems scope final (space ++ text) items := by
  cases spells with
  | blank blank' => exact .blank (allBlank_append.2 ⟨blank, blank'⟩)
  | operand blank' operand rest =>
    rw [← List.append_assoc]
    exact .operand (allBlank_append.2 ⟨blank, blank'⟩) operand rest
  | symbol blank' found rest =>
    rw [← List.append_assoc]
    exact .symbol (allBlank_append.2 ⟨blank, blank'⟩) found rest

theorem SpellsItems.append {text rest : List Char} {items more : List Item}
    (first : SpellsItems scope final text items) (second : SpellsItems scope final rest more) :
    SpellsItems scope final (text ++ rest) (items ++ more) :=
  match first with
  | .blank gap => second.prepend gap
  | .operand gap spelled first => by
    rw [List.append_assoc, List.append_assoc]
    exact .operand gap spelled (first.append second)
  | .symbol gap known first => by
    rw [List.append_assoc, List.append_assoc]
    exact .symbol gap known (first.append second)

theorem SpellsItems.flatten {text : List Char} {pieces : List (List Char)} {itemss : List (List Item)}
    (spaced : Spaced text pieces) (each : List.Forall₂ (SpellsItems scope final) pieces itemss) :
    SpellsItems scope final text itemss.flatten := by
  induction spaced generalizing itemss with
  | blank blank =>
    cases each
    exact .blank blank
  | piece blank _ inductionHypothesis =>
    obtain _ | ⟨first, rest⟩ := each
    exact (first.append (inductionHypothesis rest)).prepend blank

theorem SpellsItems.ofOperand {text : List Char} {e : Expr} (operand : SpellsOperand scope final text e) :
    SpellsItems scope final text [.operand e] := by
  have whole : SpellsItems scope final ([] ++ (text ++ [])) [.operand e] :=
    .operand rfl operand (.blank rfl)
  simpa using whole

theorem SpellsItems.ofSymbol {text : List Char} {roles : Roles}
    (found : scope.grammar.roles? (String.ofList text) = some roles) :
    SpellsItems scope final text [.symbol (String.ofList text) roles] := by
  have whole : SpellsItems scope final ([] ++ (text ++ [])) [.symbol (String.ofList text) roles] :=
    .symbol rfl found (.blank rfl)
  simpa using whole

theorem SpellsOperand.isOperand {text : List Char} {e : Expr} (spells : SpellsOperand scope final text e) :
    e.isOperand ∧ e.isVoid = false := by
  cases spells <;> exact ⟨rfl, rfl⟩

theorem SpellsItems.found {text : List Char} {items : List Item}
    (spells : SpellsItems scope final text items) : ∀ i ∈ items, i.Found scope.grammar :=
  match spells with
  | .blank _ => List.forall_mem_nil _
  | .operand _ spelled rest => List.forall_mem_cons.2 ⟨spelled.isOperand, rest.found⟩
  | .symbol _ known rest => List.forall_mem_cons.2 ⟨known, rest.found⟩

end

/-! ## Operands -/

open Parsing

theorem eq_of_betweenParens? {text inner : List Char} (found : betweenParens? text = some inner) :
    text = '(' :: (inner ++ [')']) := by
  unfold betweenParens? at found
  split at found
  · rename_i rest
    obtain ⟨last, _⟩ := Option.filter_eq_some_iff.1 found
    rw [dropLast?_eq_some_iff.1 last]
  · cases found

section

variable {scope : Scope} {nested : NestedParser} {depth : Nat}
  (inside : ∀ text, text.count '(' < depth →
    Gathers scope (fun final e => Spells scope final false text e) (nested text))

abbrev Operand (scope : Scope) (final : Table String Cell) (text : List Char) (result : Option Expr) :
    Prop :=
  ∀ e ∈ result, SpellsOperand scope final text e

include inside

omit inside in
theorem sublist_of_argumentTexts {inner text : List Char} (member : text ∈ argumentTexts inner) :
    text.Sublist inner := by
  have split (inner : List Char) (open' : Nat) :
      ∀ part ∈ splitAtCommas open' inner, part.Sublist inner := by
    induction inner generalizing open' with
    | nil => exact List.forall_mem_singleton.2 (List.Sublist.refl [])
    | cons c inner inductionHypothesis =>
      rw [splitAtCommas]
      split
      · exact List.forall_mem_cons.2 ⟨List.nil_sublist _, fun part member =>
          (inductionHypothesis open' part member).cons c⟩
      · dsimp only
        generalize (if c = '(' then open' + 1 else if c = ')' then open' - 1 else open') = next
        have parts := inductionHypothesis next
        split
        · exact List.forall_mem_singleton.2 (List.singleton_sublist.2 List.mem_cons_self)
        · rename_i part parts' same
          rw [same, List.forall_mem_cons] at parts
          exact List.forall_mem_cons.2 ⟨parts.1.cons_cons c, fun part member => (parts.2 part member).cons c⟩
  unfold argumentTexts at member
  split at member
  · cases member
  · obtain ⟨part, among, rfl⟩ := List.mem_map.1 member
    exact ((Spaced.trim part).sublist _ List.mem_cons_self).trans (split inner 0 part among)

omit inside in
theorem spellsArguments_of_forall₂ {final : Table String Cell} {texts : List (List Char)} {es : List Expr}
    (all : List.Forall₂ (fun text e => ∃ result, Spells scope final false text result ∧
      e = result.getD .void) texts es) : SpellsArguments scope final texts es := by
  induction all with
  | nil => exact .nil
  | cons first _ inductionHypothesis =>
    obtain ⟨result, spells, rfl⟩ := first
    exact .cons spells inductionHypothesis

theorem call?_spells {text : List Char} (shallow : text.count '(' ≤ depth) :
    Gathers scope (fun final result => Operand scope final text result) (call? scope nested text) := by
  have nothing : Gathers scope (fun final result => Operand scope final text result) (pure none) :=
    .result fun _ _ impossible => by cases impossible
  unfold call?
  dsimp only
  split
  · exact nothing
  · rename_i inner between
    have whole : text = text.takeWhile (· ≠ '(') ++ '(' :: (inner ++ [')']) := by
      rw [← eq_of_betweenParens? between, List.takeWhile_append_dropWhile]
    generalize text.takeWhile (· ≠ '(') = name at whole ⊢
    subst whole
    split
    · exact nothing
    · rename_i named
      split
      · exact nothing
      · rename_i function known
        have argument (text : List Char) (member : text ∈ argumentTexts inner) : Gathers scope
            (fun final e => ∃ result, Spells scope final false text result ∧ e = result.getD .void)
            (do return (← nested text).getD .void) := by
          have fewer := (sublist_of_argumentTexts member).count_le '('
          simp only [List.count_append, List.count_cons_self] at shallow
          exact .bind (inside text (by omega)) fun result => .result fun _ spells => ⟨result, spells, rfl⟩
        refine .bind (.mapM argument) fun es => .result fun final all e same => ?_
        cases same
        exact .call (by simpa using named) (spellsArguments_of_forall₂ all) (all.length_eq ▸ known)

theorem operand?_spells {text : List Char} (shallow : text.count '(' ≤ depth) :
    Gathers scope (fun final result => Operand scope final text result) (operand? scope nested text) := by
  unfold operand?
  split
  · rename_i a reads
    refine .result fun final e same => ?_
    cases same
    exact .number reads
  · split
    · rename_i inner between
      cases eq_of_betweenParens? between
      simp only [List.count_cons_self, List.count_append] at shallow
      refine .bind (inside inner (by omega)) fun result => .result fun final spells e same => ?_
      cases same
      exact .parens spells
    · split
      · rename_i named
        rw [Bool.and_eq_true, Bool.not_eq_true'] at named
        refine .bind (cell_gathers scope _) fun c => .result fun final found e same => ?_
        cases same
        exact .name named.1 named.2 found
      · exact call?_spells inside shallow

/-! ## Lines -/

theorem fragmentItem_spells {fragment : List Char} (shallow : fragment.count '(' ≤ depth) :
    Gathers scope (fun final i => SpellsItems scope final fragment [i])
      (fragmentItem scope nested fragment) := by
  refine .bind (operand?_spells inside shallow) fun result => ?_
  cases result with
  | none => exact .failure _
  | some e => exact .result fun final spells => .ofOperand (spells e rfl)

theorem segmentItems_spells {cuts : Cuts} (made : Cuts.ofGrammar scope.grammar = .ok cuts)
    {segment : List Char} (shallow : segment.count '(' ≤ depth) :
    Gathers scope (fun final items => SpellsItems scope final segment items)
      (segmentItems scope cuts nested segment) := by
  unfold segmentItems
  split
  · rename_i roles found
    exact .result fun final => .ofSymbol found
  · refine .bind (operand?_spells inside shallow) fun result => ?_
    cases result with
    | some e => exact .result fun final spells => .ofOperand (spells e rfl)
    | none =>
      have spaced := cuts.aroundParens.spaced_tokens (by cases made; rfl) segment
      refine (Gathers.mapM fun fragment member => fragmentItem_spells inside
        (Nat.le_trans ((spaced.sublist fragment member).count_le '(') shallow)).weaken
        fun final items each _ => ?_
      have joined := SpellsItems.flatten spaced (List.forall₂_map_right_iff.2 each)
      rwa [← List.flatMap_def, List.flatMap_singleton'] at joined

theorem tokenItems_spells {cuts : Cuts} (made : Cuts.ofGrammar scope.grammar = .ok cuts)
    {token : List Char × Option Expr} (shallow : token.1.count '(' ≤ depth) :
    Gathers scope (fun final items => Operand scope final token.1 token.2 →
      SpellsItems scope final token.1 items) (tokenItems scope cuts nested token) := by
  obtain ⟨text, result⟩ := token
  cases result with
  | some e => exact .result fun final spells => .ofOperand (spells e rfl)
  | none =>
    have spaced := cuts.aroundSymbols.spaced_tokens (by cases made; rfl) text
    exact .bind (.mapM fun segment member => segmentItems_spells inside made
      (Nat.le_trans ((spaced.sublist segment member).count_le '(') shallow)) fun items =>
        .result fun final each _ => .flatten spaced each

omit inside in
theorem leadingOf_eq_some {wholeLine : Bool} {text : List Char} {e : Expr}
    (continues : scope.leadingOf wholeLine text = some e) : ∃ c, scope.leading = some c ∧ e = .cell c := by
  unfold Scope.leadingOf at continues
  split at continues
  · obtain ⟨c, leads, same⟩ := Option.map_eq_some_iff.1 continues
    exact ⟨c, leads, same.symm⟩
  · cases continues

omit inside in
theorem line_spells {p : Grammar.Plan} (accepted : p.toGrammar = .ok scope.grammar)
    {final : Table String Cell} {wholeLine : Bool} {text : List Char} (filled : allBlank text = false)
    {items : List Item} (spells : SpellsItems scope final text items) {l : Line Item}
    (decides : (Line.ofList items).decide scope.grammar = .ok l) {e : Expr}
    (groups : (l.withLeading (scope.leadingOf wholeLine text)).toExpr scope.grammar = .ok e) :
    Spells scope final wholeLine text (some e) := by
  have commits := commits_of_decide spells.found decides (scope.leadingOf wholeLine text)
  refine .line filled spells commits groups (commits.written accepted spells.found ?_ groups)
  intro x continues
  obtain ⟨c, _, rfl⟩ := leadingOf_eq_some continues
  exact ⟨rfl, rfl⟩

omit inside in
theorem operand_spells {final : Table String Cell} {wholeLine : Bool} {text : List Char}
    (filled : allBlank text = false) {e : Expr} (spells : SpellsItems scope final text [.operand e])
    (operand : e.isOperand ∧ e.isVoid = false) : Spells scope final wholeLine text (some e) := by
  refine .line filled spells ⟨[.operand e], .cons (.operand e) .nil, ?_⟩
    (groupTiers_single _ 0 (.inr rfl)) (Expr.written_operand operand.1 operand.2)
  cases scope.leadingOf wholeLine text <;> rfl

theorem entries_spell {cuts : Cuts} (made : Cuts.ofGrammar scope.grammar = .ok cuts)
    {text : List Char} (shallow : text.count '(' ≤ depth) :
    Gathers scope (fun final entries => cuts.atBlanks.tokens text = entries.map Prod.fst ∧
        ∀ entry ∈ entries, Operand scope final entry.1 entry.2)
      ((cuts.atBlanks.tokens text).mapM fun token => do
        return (token, ← operand? scope nested token)) := by
  have spaced := cuts.atBlanks.spaced_tokens (by cases made; rfl) text
  have token (token : List Char) (member : token ∈ cuts.atBlanks.tokens text) : Gathers scope
      (fun final entry => entry.1 = token ∧ Operand scope final entry.1 entry.2)
      (do return (token, ← operand? scope nested token)) :=
    .bind (operand?_spells inside (Nat.le_trans ((spaced.sublist token member).count_le '(') shallow))
      fun result => .result fun _ spells => ⟨rfl, spells⟩
  refine (Gathers.mapM token).weaken fun final entries tried => ?_
  clear token spaced
  generalize cuts.atBlanks.tokens text = tokens at tried ⊢
  induction tried with
  | nil => exact ⟨rfl, List.forall_mem_nil _⟩
  | cons first _ inductionHypothesis =>
    obtain ⟨rfl, spells⟩ := first
    exact ⟨congrArg _ inductionHypothesis.1, List.forall_mem_cons.2 ⟨spells, inductionHypothesis.2⟩⟩

theorem entryItems_spell {cuts : Cuts} (made : Cuts.ofGrammar scope.grammar = .ok cuts)
    {text : List Char} (shallow : text.count '(' ≤ depth) {entries : List (List Char × Option Expr)}
    (tokens : cuts.atBlanks.tokens text = entries.map Prod.fst) :
    Gathers scope (fun final items => (∀ entry ∈ entries, Operand scope final entry.1 entry.2) →
        SpellsItems scope final text items.flatten)
      (entries.mapM (tokenItems scope cuts nested)) := by
  have spaced := cuts.atBlanks.spaced_tokens (by cases made; rfl) text
  rw [tokens] at spaced
  have items (entry : List Char × Option Expr) (member : entry ∈ entries) : Gathers scope
      (fun final items => (∀ entry ∈ entries, Operand scope final entry.1 entry.2) →
        SpellsItems scope final entry.1 items) (tokenItems scope cuts nested entry) :=
    (tokenItems_spells inside made (Nat.le_trans ((spaced.sublist _
      (List.mem_map_of_mem member)).count_le '(') shallow)).weaken
        fun final items spells all => spells (all entry member)
  refine (Gathers.mapM items).weaken fun final items each tried => .flatten spaced ?_
  exact List.forall₂_map_left_iff.2 (each.imp fun _ _ spells => spells tried)

theorem parseWith_spells {p : Grammar.Plan} (accepted : p.toGrammar = .ok scope.grammar) {cuts : Cuts}
    (made : Cuts.ofGrammar scope.grammar = .ok cuts) (wholeLine : Bool) {text : List Char}
    (shallow : text.count '(' ≤ depth) :
    Gathers scope (fun final e => Spells scope final wholeLine text e)
      (parseWith scope cuts nested wholeLine text) := by
  have config : cuts.atBlanks.config = { parenConfig with breaksOnBlank := true } := by
    cases made
    rfl
  have spaced := cuts.atBlanks.spaced_tokens (by rw [config]; rfl) text
  have filled (some : cuts.atBlanks.tokens text ≠ []) : allBlank text = false := by
    by_contra blank
    refine some (tokens_of_allBlank ?_ ?_ ?_ (Bool.not_eq_false _ ▸ blank)) <;> rw [config]
    · exact ⟨rfl, rfl, rfl, rfl, rfl, rfl, rfl, rfl, fun _ impossible => by cases impossible⟩
    · rfl
  refine .bind_of (entries_spell inside made shallow) fun entries final tried => ?_
  have tokens := tried.1
  split
  · rw [tokens] at spaced
    exact .result fun final _ => .blank (by cases spaced with | blank blank => exact blank)
  · rename_i text' e
    refine .result fun final tried => ?_
    have spells := tried.2 _ List.mem_cons_self e rfl
    rw [tokens] at spaced filled
    exact operand_spells (filled (List.cons_ne_nil _ _))
      (.flatten spaced (.cons (.ofOperand spells) .nil)) spells.isOperand
  · rename_i several _
    refine .bind (entryItems_spell inside made shallow tokens) fun items => ?_
    refine .bind (.ofExcept (P := fun _ l => (Line.ofList items.flatten).decide scope.grammar = .ok l)
      fun l ends _ => ends) fun l => ?_
    refine .bind (.ofExcept (P := fun _ e => (l.withLeading (scope.leadingOf wholeLine text)).toExpr
      scope.grammar = .ok e) fun e ends _ => ends) fun e => ?_
    refine .result fun final groups decides spells tried => ?_
    refine line_spells accepted (filled fun none => several ?_) (spells tried.2) decides groups
    exact List.map_eq_nil_iff.1 (tokens.symm.trans none)

omit inside in
theorem parseToDepth_spells {p : Grammar.Plan} (accepted : p.toGrammar = .ok scope.grammar) {cuts : Cuts}
    (made : Cuts.ofGrammar scope.grammar = .ok cuts) (depth : Nat) (wholeLine : Bool)
    {text : List Char} (shallow : text.count '(' < depth) :
    Gathers scope (fun final e => Spells scope final wholeLine text e)
      (parseToDepth scope cuts depth wholeLine text) := by
  induction depth generalizing wholeLine text with
  | zero => exact absurd shallow (Nat.not_lt_zero _)
  | succ depth inductionHypothesis =>
    exact parseWith_spells (fun _ => inductionHypothesis false) accepted made wholeLine
      (Nat.le_of_lt_succ shallow)

end

theorem spells_of_parse {p : Grammar.Plan} {scope : Scope} (accepted : p.toGrammar = .ok scope.grammar)
    {line : String} {parsed : Parsed} (parses : parse scope line = .ok parsed) :
    scope.Creates parsed.created ∧ Spells scope parsed.created true line.toList parsed.expr := by
  unfold parse at parses
  dsimp only at parses
  split at parses
  · cases parses
  · obtain ⟨cuts, made, parses⟩ := bind_eq_ok.1 parses
    obtain ⟨⟨e, created⟩, reads, same⟩ := bind_eq_ok.1 parses
    cases same
    obtain ⟨creates, _, spells⟩ :=
      parseToDepth_spells accepted made _ true (Nat.lt_succ_self _) ∅ e created (.empty scope) reads
    exact ⟨creates, spells created (.refl _)⟩

/-! ## Main result -/

/-- Parsing loses, duplicates and reorders nothing.  In every accepted grammar a line that parses
    is blank and has no expression, or it consists of operands and symbols in order; these, with
    the default operator between adjacent operands and what the line continues from in front, are
    the items that the expression reads as, each once.  The texts inside of the operands spell
    what stands in them in the same way. -/
theorem parse_keeps_items {p : Grammar.Plan} {g : Grammar} (accepted : p.toGrammar = .ok g)
    {scope : Scope} (grammar : scope.grammar = g) {line : String} {parsed : Parsed}
    (parses : parse scope line = .ok parsed) :
    (allBlank line.toList ∧ parsed.expr = none) ∨
    ∃ items committed e, parsed.expr = some e ∧
      SpellsItems scope parsed.created line.toList items ∧
      Commits g (scope.leadingOf true line.toList) items committed ∧ e.written g = committed := by
  subst grammar
  obtain ⟨_, spells⟩ := spells_of_parse accepted parses
  generalize parsed.expr = result at spells
  cases spells with
  | blank blank => exact .inl ⟨blank, rfl⟩
  | line _ items commits _ written => exact .inr ⟨_, _, _, rfl, items, commits, written⟩

/-- In the standard grammar a line with two gaps, a spliced multiplication and parentheses. -/
theorem line_with_gaps_keeps_items :
    ∃ parsed, parse ⟨Grammar.standard, ∅, ∅, ∅, none, 0⟩ "2 x (-1 + ) ?" = .ok parsed ∧
      ∃ items committed e, parsed.expr = some e ∧
        SpellsItems ⟨Grammar.standard, ∅, ∅, ∅, none, 0⟩ parsed.created
          "2 x (-1 + ) ?".toList items ∧
        Commits Grammar.standard none items committed ∧ e.written Grammar.standard = committed := by
  have accepted : (parse ⟨Grammar.standard, ∅, ∅, ∅, none, 0⟩ "2 x (-1 + ) ?").toOption.isSome := by
    decide +kernel
  obtain ⟨parsed, result⟩ := exists_ok accepted
  refine ⟨parsed, result, ?_⟩
  rcases parse_keeps_items Grammar.toGrammar_standard rfl result with ⟨blank, _⟩ | keeps
  · exact absurd blank (by decide)
  · exact keeps

end Abacus.Parse
