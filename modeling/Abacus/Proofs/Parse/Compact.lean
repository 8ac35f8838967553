import Abacus.Proofs.Parse.Operand
import Abacus.Proofs.Parse.Reading
import Abacus.Proofs.Tokens.Leading

/-!
# Lines without blanks

Operands with symbols between them can be written with blanks around the symbols or without
them.  With blanks every operand is a token of its own; without them the line is one token, which
is cut at its symbols.  Only numbers with a sign in their exponent are cut in two.
-/

namespace Abacus

namespace Parse

open Text Lexeme Fallible
open Grammar (standard Registered)

/-! ## Operands and symbols -/

/-- The texts that are one operand as a whole: numbers, names, texts in parentheses, and calls of
    known functions. -/
inductive Base (scope : Scope) : String → Prop where
  | number {text : String} {a : Number} : Number.ofText? text.toList = some a → Base scope text
  | name {name : String} : isName name.toList → Base scope name
  | parens {inner : String} : balanced inner.toList → Base scope ("(" ++ inner ++ ")")
  | call {name inner : String} {f : Function} : isName name.toList → balanced inner.toList →
      scope.functions.get? (name, (argumentTexts inner.toList).length) = some f →
      Base scope (name ++ "(" ++ inner ++ ")")

/-- Operands with one symbol between each two of them. -/
inductive Interleaved (operand : String → Prop) : List String → Prop where
  | last {text : String} : operand text → Interleaved operand [text]
  | cons {text symbol : String} {rest : List String} : operand text → Registered symbol →
      Interleaved operand rest → Interleaved operand (text :: symbol :: rest)

theorem Interleaved.mono {operand operand' : String → Prop} {pieces : List String}
    (terms : Interleaved operand pieces) (imp : ∀ text, operand text → operand' text) :
    Interleaved operand' pieces := by
  induction terms with
  | last isOperand => exact .last (imp _ isOperand)
  | cons isOperand registered _ inductionHypothesis =>
    exact .cons (imp _ isOperand) registered inductionHypothesis

/-- Numbers with a sign in their exponent. -/
def SignedNumber (text : String) : Prop :=
  (Number.ofText? text.toList).isSome ∧ ('+' ∈ text.toList ∨ '-' ∈ text.toList)

instance (text : String) : Decidable (SignedNumber text) :=
  inferInstanceAs (Decidable (_ ∧ _))

theorem toList_parens (inner : String) :
    ("(" ++ inner ++ ")").toList = '(' :: (inner.toList ++ [')']) := by
  simp

theorem toList_call (name inner : String) :
    (name ++ "(" ++ inner ++ ")").toList = name.toList ++ '(' :: (inner.toList ++ [')']) := by
  simp

theorem solid_of_divided {front digits : List Char} {sign : Char}
    (divided : Number.Divided front sign digits) : Solid front ∧ Solid digits := by
  obtain ⟨filled, all⟩ := isDigits_iff.1 divided.digits
  exact ⟨solid_of_words divided.filled divided.words,
    solid_of_words filled fun c member => isWordChar_of_isDigit (all c member)⟩

namespace Base

theorem of_isSome {scope : Scope} {text : String} (reads : (Number.ofText? text.toList).isSome) :
    Base scope text := by
  obtain ⟨a, found⟩ := Option.isSome_iff_exists.1 reads
  exact .number found

variable {scope : Scope} {text : String} (base : Base scope text)

include base

/-- A number with a signed exponent is all that a sign divides; other operands are solid. -/
theorem solid_or_divided : (Solid text.toList ∧ ¬ SignedNumber text) ∨
    ∃ front sign digits, text.toList = front ++ sign :: digits ∧
      Number.Divided front sign digits ∧ SignedNumber text := by
  have unsigned (other : Number.ofText? text.toList = none) : ¬ SignedNumber text := by
    rw [SignedNumber, other]
    exact fun signed => Bool.noConfusion signed.1
  cases base with
  | @number _ a found =>
    rcases Number.words_or_divided found with words | ⟨front, sign, digits, whole, divided⟩
    · refine .inl ⟨solid_of_words (fun empty => ?_) words, fun signed => ?_⟩
      · rw [empty] at found
        cases found
      · rcases signed.2 with member | member <;> cases words _ member
    · refine .inr ⟨front, sign, digits, whole, divided, by rw [found]; rfl, ?_⟩
      rw [whole]
      rcases divided.sign with rfl | rfl <;> simp
  | name named => exact .inl ⟨solid_of_isName named, unsigned (Number.ofText?_of_isName named)⟩
  | parens pairs =>
    rw [toList_parens] at unsigned ⊢
    exact .inl ⟨⟨List.cons_ne_nil _ _, (nested_of_balanced _ pairs).parens _⟩,
      unsigned (Number.ofText?_parens _)⟩
  | call named pairs _ =>
    rw [toList_call] at unsigned ⊢
    exact .inl ⟨⟨by simp, (solid_of_isName named).2.append ((nested_of_balanced _ pairs).parens _)⟩,
      unsigned (Number.ofText?_call named _)⟩

theorem nested : text.toList ≠ [] ∧ Nested (fun c => isBlank c = false) text.toList := by
  rcases base.solid_or_divided with ⟨solid, _⟩ | ⟨front, sign, digits, whole, divided, _⟩
  · exact ⟨solid.1, solid.2.weaken fun _ => isBlank_of_isWordChar⟩
  · obtain ⟨solidFront, solidDigits⟩ := solid_of_divided divided
    have sign : isBlank sign = false ∧ sign ≠ '(' ∧ sign ≠ ')' := by
      rcases divided.sign with rfl | rfl <;> decide
    rw [whole]
    exact ⟨by simp, (solidFront.2.weaken fun _ => isBlank_of_isWordChar).append
      (.char sign.1 sign.2.1 sign.2.2 (solidDigits.2.weaken fun _ => isBlank_of_isWordChar))⟩

theorem ne_front {front digits : List Char} {sign : Char}
    (divided : Number.Divided front sign digits) : text.toList ≠ front := by
  rintro rfl
  have noParens : '(' ∉ text.toList := fun member => by cases divided.words '(' member
  cases base with
  | number found => cases found.symm.trans divided.noNumber
  | name named => exact Bool.noConfusion (named.symm.trans divided.noName)
  | parens _ => exact noParens (by simp)
  | call _ _ _ => exact noParens (by simp)

theorem plain_or_closed : '(' ∉ text.toList ∨ ∃ name inner, '(' ∉ name ∧
    Nested (fun _ => True) inner ∧ text.toList = name ++ '(' :: (inner ++ [')']) := by
  cases base with
  | number found =>
    refine .inl fun member => ?_
    rcases Number.word_or_sign found '(' member with word | same | same
    · cases word
    · cases same
    · cases same
  | name named => exact .inl (noParens_of_isName named)
  | parens pairs =>
    exact .inr ⟨[], _, List.not_mem_nil, nested_of_balanced _ pairs, toList_parens _⟩
  | call named pairs _ =>
    exact .inr ⟨_, _, noParens_of_isName named, nested_of_balanced _ pairs, toList_call _ _⟩

variable {mark : Char} (isMark : isMark mark) (rest : List Char)

include isMark

theorem ofText?_joined : Number.ofText? (text.toList ++ mark :: rest) = none := by
  have word := (isMark_iff.1 isMark).1
  refine Option.eq_none_iff_forall_ne_some.2 fun a found => ?_
  rcases Number.words_or_divided found with words | ⟨front, sign, digits, whole, divided⟩
  · exact Bool.noConfusion (word.symm.trans (words mark (by simp)))
  · -- The symbol would start with the sign, and the operand would be what stands in front of it.
    rcases List.append_eq_append_iff.1 whole with ⟨surplus, same, behind⟩ | ⟨surplus, same, behind⟩
    · cases surplus with
      | nil => exact base.ne_front divided (by simpa using same.symm)
      | cons c surplus =>
        obtain ⟨rfl, _⟩ := List.cons.inj behind
        exact Bool.noConfusion (word.symm.trans (divided.words mark (by simp [same])))
    · cases surplus with
      | nil => exact base.ne_front divided (by simpa using same)
      | cons c surplus =>
        obtain ⟨_, rfl⟩ := List.cons.inj behind
        have digit := (isDigits_iff.1 divided.digits).2 mark (by simp)
        exact Bool.noConfusion (word.symm.trans (isWordChar_of_isDigit digit))

omit isMark in
theorem betweenParens?_joined : betweenParens? (text.toList ++ mark :: rest) = none := by
  rcases base.plain_or_closed with plain | ⟨name, inner, plain, nested, whole⟩
  · obtain ⟨c, tail, whole⟩ := List.exists_cons_of_ne_nil base.nested.1
    rw [whole]
    exact betweenParens?_of_head (fun same => plain (by simp [whole, same])) _
  · rw [whole, List.append_assoc, List.cons_append, List.append_assoc]
    cases name with
    | nil => exact betweenParens?_of_rest nested (List.cons_ne_nil mark rest)
    | cons c name => exact betweenParens?_of_head (fun same => plain (by simp [same])) _

theorem call?_joined {nested : NestedParser} :
    call? scope nested (text.toList ++ mark :: rest) = pure none := by
  obtain ⟨word, opens, _⟩ := isMark_iff.1 isMark
  unfold call?
  dsimp only
  rcases base.plain_or_closed with plain | ⟨name, inner, plain, nested, whole⟩
  · have noName : isName ((text.toList ++ mark :: rest).takeWhile (· ≠ '(')) = false := by
      have passes : ∀ c ∈ text.toList, decide (c ≠ '(') = true := fun c member =>
        decide_eq_true fun same => plain (same ▸ member)
      rw [List.takeWhile_append_of_pos passes]
      exact isName_of_mark isMark (by simp [opens])
    rw [noName]
    split <;> rfl
  · obtain ⟨_, dropped⟩ := cut_call plain (inner ++ ([')'] ++ mark :: rest))
    have open' : betweenParens? ('(' :: (inner ++ ([')'] ++ mark :: rest))) = none :=
      betweenParens?_of_rest nested (List.cons_ne_nil mark rest)
    rw [whole, List.append_assoc, List.cons_append, List.append_assoc, dropped, open']

/-- An operand with a symbol behind it is no operand, whatever follows. -/
theorem operand?_joined {nested : NestedParser} :
    operand? scope nested (text.toList ++ mark :: rest) = pure none := by
  unfold operand?
  rw [base.ofText?_joined isMark, base.betweenParens?_joined,
    isName_of_mark isMark (by simp)]
  exact base.call?_joined isMark rest

omit isMark

theorem exists_operand (grammar : scope.grammar = standard) (nested : NestedParser) :
    ∃ read : Parsing Expr, operand? scope nested text.toList = do return some (← read) := by
  cases base with
  | @number _ a found => exact ⟨pure (.literal (some a)), operand?_number found⟩
  | name named =>
    refine ⟨do return .cell (← scope.cell text), ?_⟩
    rw [operand?_name named (grammar ▸ isSymbol_of_isName named)]
    simp only [bind_assoc, pure_bind]
  | @parens inner pairs =>
    refine ⟨do return .parens ((← nested inner.toList).getD .void), ?_⟩
    rw [toList_parens, operand?_parens (nested_of_balanced _ pairs)]
    simp only [bind_assoc, pure_bind]
  | @call name inner f named pairs known =>
    refine ⟨do
      return .call f (← (argumentTexts inner.toList).mapM fun text => do
        return (← nested text).getD .void), ?_⟩
    rw [toList_call, operand?_called named (nested_of_balanced _ pairs) known]
    simp only [bind_assoc, pure_bind]

end Base

/-! ## Segments -/

section

variable {scope : Scope} {nested : NestedParser} {front digits : List Char} {sign : Char}
  (divided : Number.Divided front sign digits)

include divided

theorem noParens_of_divided : ∀ c ∈ front, c ≠ '(' ∧ c ≠ ')' := fun c member => by
  have word := divided.words c member
  constructor <;> (rintro rfl; cases word)

theorem operand?_front : operand? scope nested front = pure none := by
  have noParens := noParens_of_divided divided
  have dropped : front.dropWhile (· ≠ '(') = [] :=
    List.dropWhile_eq_nil_iff.2 fun c member => by simpa using (noParens c member).1
  have between : betweenParens? front = none := by
    obtain ⟨c, tail, rfl⟩ := List.exists_cons_of_ne_nil divided.filled
    exact betweenParens?_of_head (noParens c List.mem_cons_self).1 tail
  unfold operand?
  rw [divided.noNumber, between, divided.noName]
  dsimp only
  rw [Bool.false_and, if_neg Bool.false_ne_true]
  unfold call?
  dsimp only
  rw [dropped]
  rfl

theorem fragments_front {g : Grammar} {cuts : Cuts} (made : Cuts.ofGrammar g = .ok cuts) :
    cuts.aroundParens.tokens front = [front] := by
  let parens : Tokenizer.Config :=
    { parenConfig with breaksBefore := ["("], breaksAfter := [")"] }
  have config : cuts.aroundParens.config = parens := by
    cases made
    rfl
  have symbols : ∀ symbol ∈ parens.symbols, symbol = "(" ∨ symbol = ")" := by decide
  have noParens := noParens_of_divided divided
  refine Tokenizer.tokens_plain _ (by rw [config]; rfl) (by rw [config]; rfl) divided.filled
    ((solid_of_divided divided).1.2.trim fun _ => isBlank_of_isWordChar)
    fun c member symbol among first => ?_
  rcases symbols symbol (config ▸ among) with rfl | rfl
  · exact (noParens c member).1 (Option.some.inj first).symm
  · exact (noParens c member).2 (Option.some.inj first).symm

end

section

variable {scope : Scope} (grammar : scope.grammar = standard) {cuts : Cuts}
  (made : Cuts.ofGrammar standard = .ok cuts) {nested : NestedParser}

include grammar

theorem segmentItems_operand {text : String} (solid : Solid text.toList) {read : Parsing Expr}
    (reads : operand? scope nested text.toList = do return some (← read)) :
    segmentItems scope cuts nested text.toList = do return [.operand (← read)] := by
  unfold segmentItems
  rw [String.ofList_toList, grammar, roles?_of_solid solid, reads]
  simp only [bind_assoc, pure_bind]

theorem segmentItems_symbol {symbol : String} {roles : Roles}
    (known : standard.roles? symbol = some roles) :
    segmentItems scope cuts nested symbol.toList = pure [.symbol symbol roles] := by
  unfold segmentItems
  rw [String.ofList_toList, grammar, known]

include made

theorem segmentItems_front {front digits : List Char} {sign : Char}
    (divided : Number.Divided front sign digits) :
    segmentItems scope cuts nested front = throw (.unrecognized (String.ofList front)) := by
  have solid := (solid_of_divided divided).1
  have fragment :
      fragmentItem scope nested front = throw (.unrecognized (String.ofList front)) := by
    unfold fragmentItem
    rw [operand?_front divided]
    rfl
  unfold segmentItems
  rw [grammar, roles?_of_solid (by rwa [String.toList_ofList]), operand?_front divided]
  dsimp only
  rw [pure_bind, fragments_front divided made, List.mapM_cons, fragment]
  rfl

end

/-! ## Cutting without blanks -/

theorem cut_join {t : Tokenizer} (config : t.config = symbolConfig) {pieces : List String}
    (terms : Interleaved (fun text => Solid text.toList) pieces) :
    t.Cut (String.join pieces).toList (pieces.map String.toList) ∧
      Quiet (String.join pieces).toList := by
  have passes {text : List Char} (solid : Solid text) : Nested t.config.Passes text := by
    rw [config]
    exact solid.2.weaken fun c => passes_symbolConfig
  have trimmed {text : List Char} (solid : Solid text) : trim text = text :=
    solid.2.trim fun c => isBlank_of_isWordChar
  induction terms with
  | @last text solid =>
    have whole : (String.join [text]).toList = text.toList ++ [] := by simp
    rw [whole]
    exact ⟨.nested solid.1 (trimmed solid) (passes solid) (.inl rfl) .nil, solid.quiet []⟩
  | @cons text symbol rest solid registered _ inductionHypothesis =>
    obtain ⟨cut, quiet⟩ := inductionHypothesis
    have whole : (String.join (text :: symbol :: rest)).toList =
        text.toList ++ (symbol.toList ++ (String.join rest).toList) := by simp
    have separator : symbol ∈ t.config.separators := config ▸ registered
    have found := longestSymbol?_symbol config registered quiet
    rw [whole]
    exact ⟨.nested solid.1 (trimmed solid) (passes solid) (.inr ⟨symbol, separator, found⟩)
      (cut_separator config registered quiet cut), solid.quiet _⟩

/-! ## Reading both texts -/

theorem parseWith_of_tokens {scope : Scope} {cuts : Cuts} {nested : NestedParser}
    {wholeLine : Bool} {text first second : List Char} {others : List (List Char)}
    (tokens : cuts.atBlanks.tokens text = first :: second :: others) :
    parseWith scope cuts nested wholeLine text =
      ((first :: second :: others).mapM fun token => do
        return (token, ← operand? scope nested token)) >>=
      readEntries scope cuts nested (scope.leadingOf wholeLine text) := by
  rw [parseWith_eq, tokens]
  simp only [List.mapM_cons, bind_assoc, pure_bind]

section

variable {scope : Scope} (grammar : scope.grammar = standard) {cuts : Cuts}
  (made : Cuts.ofGrammar standard = .ok cuts) {nested : NestedParser}

include grammar made

theorem tokenItems_registered {symbol : String} {roles : Roles}
    (known : standard.roles? symbol = some roles) :
    tokenItems scope cuts nested (symbol.toList, none) = pure [.symbol symbol roles] := by
  have config := (config_of_ofGrammar made).2
  have tokens : cuts.aroundSymbols.tokens symbol.toList = [symbol.toList] := by
    have quiet : Quiet [] := fun _ impossible => by cases impossible
    have cut := cut_separator config (Table.mem_keys known) quiet .nil
    rw [List.append_nil] at cut
    exact Tokenizer.tokens_of_cut (protects_config config) cut
  unfold tokenItems
  dsimp only
  rw [tokens, List.mapM_cons, List.mapM_nil, segmentItems_symbol grammar known]
  rfl

/-- Solid operands and the symbols between them are read in the same way as tokens and as segments
    of one token. -/
theorem tokens_as_segments {pieces : List String}
    (terms : Interleaved (fun text => Base scope text ∧ Solid text.toList) pieces) :
    (((pieces.map String.toList).mapM fun token => do
        return (token, ← operand? scope nested token)) >>= fun entries =>
      entries.mapM (tokenItems scope cuts nested)) =
    (pieces.map String.toList).mapM (segmentItems scope cuts nested) := by
  have operandItems (text : List Char) (e : Expr) :
      tokenItems scope cuts nested (text, some e) = pure [.operand e] := rfl
  induction terms with
  | last operand =>
    obtain ⟨read, reads⟩ := operand.1.exists_operand grammar nested
    simp only [List.map_cons, List.map_nil, List.mapM_cons, List.mapM_nil, reads, operandItems,
      segmentItems_operand grammar operand.2 reads, bind_assoc, pure_bind]
  | @cons text symbol rest operand registered _ inductionHypothesis =>
    obtain ⟨read, reads⟩ := operand.1.exists_operand grammar nested
    obtain ⟨roles, known⟩ := Table.exists_of_mem_keys registered
    have noOperand : operand? scope nested symbol.toList = pure none := by
      simpa using operand?_of_symbol registered []
    simp only [List.map_cons, List.mapM_cons, reads, noOperand, operandItems,
      segmentItems_operand grammar operand.2 reads, segmentItems_symbol grammar known,
      tokenItems_registered grammar made known, ← inductionHypothesis, bind_assoc, pure_bind]

end

/-! ## Both texts of a line -/

section

variable {scope : Scope} {pieces : List String} (terms : Interleaved (Base scope) pieces)

include terms

theorem Interleaved.pieces_nested :
    ∀ piece ∈ pieces, piece.toList ≠ [] ∧ Nested (fun c => isBlank c = false) piece.toList := by
  induction terms with
  | last base => exact List.forall_mem_singleton.2 base.nested
  | @cons text symbol rest base registered _ inductionHypothesis =>
    have marks : ∀ c ∈ symbol.toList, isBlank c = false ∧ c ≠ '(' ∧ c ≠ ')' := fun c member => by
      obtain ⟨_, opens, closes, _, filled⟩ :=
        isMark_iff.1 (Grammar.isMark_of_registered symbol registered c member)
      exact ⟨filled, opens, closes⟩
    exact List.forall_mem_cons.2 ⟨base.nested, List.forall_mem_cons.2
      ⟨⟨Grammar.filled_of_registered symbol registered, .ofChars marks⟩, inductionHypothesis⟩⟩

theorem Interleaved.join_nested :
    Nested (fun c => isBlank c = false) (String.join pieces).toList := by
  have each := terms.pieces_nested
  clear terms
  induction pieces with
  | nil => exact .nil _
  | cons piece pieces inductionHypothesis =>
    rw [List.forall_mem_cons] at each
    simpa using each.1.2.append (inductionHypothesis each.2)

theorem Interleaved.spaced_nested :
    Nested (fun _ => True) (" ".intercalate pieces).toList := by
  have each := terms.pieces_nested
  clear terms
  induction pieces with
  | nil => exact .nil _
  | cons piece pieces inductionHypothesis =>
    rw [List.forall_mem_cons] at each
    have first := each.1.2.weaken fun _ _ => True.intro
    cases pieces with
    | nil => simpa using first
    | cons next pieces =>
      have blank : Nested (fun _ => True) [' '] := .ofChars (by simp)
      simpa using first.append (blank.append (inductionHypothesis each.2))

end

theorem count_spaced (pieces : List String) :
    (" ".intercalate pieces).toList.count '(' = (String.join pieces).toList.count '(' := by
  induction pieces with
  | nil => rfl
  | cons piece pieces inductionHypothesis =>
    cases pieces with
    | nil => simp
    | cons next pieces => simpa [List.count_append] using inductionHypothesis

section

variable {scope : Scope} {cuts : Cuts} (made : Cuts.ofGrammar standard = .ok cuts)
  {nested : NestedParser} {wholeLine : Bool} {text symbol : String} {rest : List String}
  (terms : Interleaved (Base scope) (text :: symbol :: rest))

include made terms

theorem parseWith_spaced :
    parseWith scope cuts nested wholeLine (" ".intercalate (text :: symbol :: rest)).toList =
      (((text :: symbol :: rest).map String.toList).mapM fun token => do
        return (token, ← operand? scope nested token)) >>=
      readEntries scope cuts nested
        (scope.leadingOf wholeLine (" ".intercalate (text :: symbol :: rest)).toList) := by
  refine parseWith_of_tokens ?_
  rw [String.toList_intercalate]
  exact tokens_of_words made (List.forall_mem_map.2 terms.pieces_nested)

theorem parseWith_join :
    parseWith scope cuts nested wholeLine (String.join (text :: symbol :: rest)).toList =
      (cuts.aroundSymbols.tokens (String.join (text :: symbol :: rest)).toList).mapM
        (segmentItems scope cuts nested) >>= fun items => readItems scope
          (scope.leadingOf wholeLine (String.join (text :: symbol :: rest)).toList)
          items.flatten := by
  have filled : (String.join (text :: symbol :: rest)).toList ≠ [] := by
    simp [(terms.pieces_nested text List.mem_cons_self).1]
  have token : cuts.atBlanks.tokens (String.join (text :: symbol :: rest)).toList =
      [(String.join (text :: symbol :: rest)).toList] :=
    token_of_nested made filled terms.join_nested
  have noOperand :
      operand? scope nested (String.join (text :: symbol :: rest)).toList = pure none := by
    cases terms with
    | cons base registered _ =>
      obtain ⟨c, tail, whole, mark⟩ := Grammar.exists_mark registered
      have joined : (String.join (text :: symbol :: rest)).toList =
          text.toList ++ c :: (tail ++ (String.join rest).toList) := by
        simp [whole]
      rw [joined]
      exact base.operand?_joined mark _
  rw [parseWith_eq, token]
  simp only [List.mapM_cons, List.mapM_nil, noOperand, pure_bind, readEntries, tokenItems,
    bind_assoc, List.flatten_singleton]

omit made in
theorem leadingOf_spaced :
    scope.leadingOf wholeLine (" ".intercalate (text :: symbol :: rest)).toList =
      scope.leadingOf wholeLine (String.join (text :: symbol :: rest)).toList := by
  obtain ⟨c, tail, whole⟩ :=
    List.exists_cons_of_ne_nil (terms.pieces_nested text List.mem_cons_self).1
  unfold Scope.leadingOf
  simp [whole]

end

/-! ## Numbers with signed exponents -/

theorem not_signedNumber_of_registered {symbol : String} (registered : Registered symbol) :
    ¬ SignedNumber symbol := by
  obtain ⟨c, tail, whole, mark⟩ := Grammar.exists_mark registered
  rw [SignedNumber, Number.ofText?_of_mark mark (.inl (by simp [whole]))]
  exact fun signed => Bool.noConfusion signed.1

theorem Interleaved.solid {scope : Scope} {pieces : List String}
    (terms : Interleaved (Base scope) pieces) (unsigned : ∀ piece ∈ pieces, ¬ SignedNumber piece) :
    Interleaved (fun text => Base scope text ∧ Solid text.toList) pieces := by
  have solid {text : String} (base : Base scope text) (unsigned : ¬ SignedNumber text) :
      Base scope text ∧ Solid text.toList := by
    rcases base.solid_or_divided with ⟨solid, _⟩ | ⟨_, _, _, _, _, signed⟩
    · exact ⟨base, solid⟩
    · exact absurd signed unsigned
  induction terms with
  | last base => exact .last (solid base (unsigned _ List.mem_cons_self))
  | cons base registered _ inductionHypothesis =>
    simp only [List.forall_mem_cons] at unsigned
    exact .cons (solid base unsigned.1) registered (inductionHypothesis unsigned.2.2)

/-- Whether a cause shows what stands in front of the sign in one of the numbers. -/
def ShowsFront (pieces : List String) (cause : ParseError) : Prop :=
  ∃ piece ∈ pieces, SignedNumber piece ∧
    cause = .unrecognized (String.ofList (piece.toList.takeWhile isWordChar))

section

variable {scope : Scope} (grammar : scope.grammar = standard) {cuts : Cuts}
  (made : Cuts.ofGrammar standard = .ok cuts) (nested : NestedParser)

include grammar made

/-- Whether reading segments always fails, for the reason for which reading pieces fails or at what
    stands in front of a sign. -/
def FailsAtFront (scope : Scope) (cuts : Cuts) (nested : NestedParser)
    (pieces segments : List String) : Prop :=
  ∀ created, ∃ cause,
    ((segments.map String.toList).mapM (segmentItems scope cuts nested)).run created =
      .error cause ∧
    (((pieces.map String.toList).mapM fun token => do
        return (token, ← operand? scope nested token)).run created = .error cause ∨
      ShowsFront pieces cause)

theorem FailsAtFront.front {text : String} {front digits : List Char} {sign : Char}
    (whole : text.toList = front ++ sign :: digits) (divided : Number.Divided front sign digits)
    (signed : SignedNumber text) {pieces : List String} (member : text ∈ pieces)
    (more : List String) :
    FailsAtFront scope cuts nested pieces (String.ofList front :: more) := by
  refine fun created => ⟨_, ?_, .inr ⟨text, member, signed, rfl⟩⟩
  have taken : text.toList.takeWhile isWordChar = front := by
    rw [whole, List.takeWhile_append_of_pos divided.words]
    rcases divided.sign with rfl | rfl <;> simp [isWordChar]
  rw [taken, List.map_cons, List.mapM_cons, String.toList_ofList,
    segmentItems_front grammar made divided]
  rfl

omit made in
theorem FailsAtFront.cons {text symbol : String} (base : Base scope text)
    (solid : Solid text.toList) (registered : Registered symbol) {pieces segments : List String}
    (fails : FailsAtFront scope cuts nested pieces segments) :
    FailsAtFront scope cuts nested (text :: symbol :: pieces) (text :: symbol :: segments) := by
  intro created
  obtain ⟨read, reads⟩ := base.exists_operand grammar nested
  obtain ⟨roles, known⟩ := Table.exists_of_mem_keys registered
  have noOperand : operand? scope nested symbol.toList = pure none := by
    simpa using operand?_of_symbol registered []
  simp only [List.map_cons, List.mapM_cons, reads, noOperand, bind_assoc, pure_bind,
    segmentItems_operand grammar solid reads, segmentItems_symbol grammar known,
    StateT.run_bind]
  cases ends : read.run created with
  | error cause => exact ⟨cause, rfl, .inl rfl⟩
  | ok result =>
    obtain ⟨cause, failed, reason⟩ := fails result.2
    refine ⟨cause, bind_eq_error.2 (.inr ⟨result, rfl, bind_eq_error.2 (.inl failed)⟩), ?_⟩
    rcases reason with failed | ⟨piece, member, shows⟩
    · exact .inl (bind_eq_error.2 (.inr ⟨result, rfl, bind_eq_error.2 (.inl failed)⟩))
    · exact .inr ⟨piece, List.mem_cons_of_mem _ (List.mem_cons_of_mem _ member), shows⟩

/-- Numbers with signed exponents are cut at the sign, and reading the segments fails at the first
    of them at the latest. -/
theorem Interleaved.divide {pieces : List String} (terms : Interleaved (Base scope) pieces) :
    ∃ segments : List String, Interleaved (fun text => Solid text.toList) segments ∧
      String.join segments = String.join pieces ∧
      ((∃ piece ∈ pieces, SignedNumber piece) →
        FailsAtFront scope cuts nested pieces segments) := by
  have signs {sign : Char} (isSign : sign = '+' ∨ sign = '-') :
      Registered (String.ofList [sign]) := by
    rcases isSign with rfl | rfl <;> decide
  induction terms with
  | @last text base =>
    rcases base.solid_or_divided with
      ⟨solid, unsigned⟩ | ⟨front, sign, digits, whole, divided, signed⟩
    · refine ⟨[text], .last solid, rfl, ?_⟩
      rintro ⟨piece, member, signed⟩
      cases List.mem_singleton.1 member
      exact absurd signed unsigned
    · obtain ⟨solidFront, solidDigits⟩ := solid_of_divided divided
      exact ⟨[String.ofList front, String.ofList [sign], String.ofList digits],
        .cons (by rwa [String.toList_ofList]) (signs divided.sign)
          (.last (by rwa [String.toList_ofList])), String.toList_injective (by simp [whole]),
        fun _ => .front grammar made nested whole divided signed List.mem_cons_self _⟩
  | @cons text symbol rest base registered _ inductionHypothesis =>
    obtain ⟨segments, solidRest, joined, fails⟩ := inductionHypothesis
    rcases base.solid_or_divided with
      ⟨solid, unsigned⟩ | ⟨front, sign, digits, whole, divided, signed⟩
    · refine ⟨text :: symbol :: segments, .cons solid registered solidRest, by simp [joined],
        fun some => .cons grammar nested base solid registered (fails ?_)⟩
      -- The number with the signed exponent is neither this operand nor the symbol.
      simpa [unsigned, not_signedNumber_of_registered registered] using some
    · obtain ⟨solidFront, solidDigits⟩ := solid_of_divided divided
      exact ⟨String.ofList front :: String.ofList [sign] :: String.ofList digits :: symbol ::
          segments,
        .cons (by rwa [String.toList_ofList]) (signs divided.sign)
          (.cons (by rwa [String.toList_ofList]) registered solidRest),
        String.toList_injective (by simp [whole, joined]),
        fun _ => .front grammar made nested whole divided signed List.mem_cons_self _⟩

end

/-! ## Main result -/

/-- In the standard grammar a line of two or more operands with symbols between them is read in the
    same way without blanks as with a blank at both sides of every symbol, unless a number among the
    operands has a sign in its exponent.  With such a number the line is refused without blanks:
    for the reason for which it is refused with blanks, or because what stands in front of the sign
    is not recognized. -/
theorem joined_pieces_parse_alike {scope : Scope} (grammar : scope.grammar = standard)
    {pieces : List String} (terms : Interleaved (Base scope) pieces) (several : 1 < pieces.length) :
    ((∀ piece ∈ pieces, ¬ SignedNumber piece) →
      parse scope (String.join pieces) = parse scope (" ".intercalate pieces)) ∧
    ((∃ piece ∈ pieces, SignedNumber piece) → ∃ cause,
      parse scope (String.join pieces) = .error cause ∧
        (parse scope (" ".intercalate pieces) = .error cause ∨ ShowsFront pieces cause)) := by
  obtain ⟨text, symbol, rest, rfl⟩ : ∃ text symbol rest, pieces = text :: symbol :: rest := by
    cases terms with
    | last _ => exact absurd several (Nat.lt_irrefl 1)
    | cons _ _ _ => exact ⟨_, _, _, rfl⟩
  obtain ⟨cuts, made⟩ := exists_cuts scope.grammar
  have made' : Cuts.ofGrammar standard = .ok cuts := grammar ▸ made
  have config := (config_of_ofGrammar made').2
  let depth := (String.join (text :: symbol :: rest)).toList.count '('
  let nested := parseToDepth scope cuts depth false
  have parses (line : String) (pairs : balanced line.toList)
      (parens : line.toList.count '(' = depth) : parse scope line =
        ((parseWith scope cuts nested true line.toList).run ∅).map fun result =>
          ⟨result.1, result.2⟩ := by
    rw [parse_eq made, if_pos pairs, parens]
    rfl
  rw [parses _ (balanced_of_nested terms.join_nested) rfl,
    parses _ (balanced_of_nested terms.spaced_nested) (count_spaced _),
    parseWith_join made' terms, parseWith_spaced made' terms, leadingOf_spaced terms]
  constructor
  · -- Every operand is solid, so the cuts of the one token are the tokens of the other line.
    intro unsigned
    have solid := terms.solid unsigned
    have segments : cuts.aroundSymbols.tokens (String.join (text :: symbol :: rest)).toList =
        (text :: symbol :: rest).map String.toList :=
      Tokenizer.tokens_of_cut (protects_config config)
        (cut_join config (solid.mono fun _ both => both.2)).1
    rw [segments, ← tokens_as_segments grammar made' solid, bind_assoc]
    rfl
  · -- The same segments come from pieces in which the signs of exponents are symbols.
    intro signed
    obtain ⟨segments, solid, joined, fails⟩ := terms.divide grammar made' nested
    obtain ⟨cause, failed, reason⟩ := fails signed ∅
    have cut := Tokenizer.tokens_of_cut (protects_config config) (cut_join config solid).1
    refine ⟨cause, ?_, reason.imp_left fun failed => ?_⟩
    · rw [← joined, cut, StateT.run_bind, failed]
      rfl
    · rw [StateT.run_bind, failed]
      rfl

/-- A call is read in the same way without blanks; a number with a signed exponent is not read. -/
theorem product_joined_parses_alike :
    let functions : Table (String × Nat) Function := .ofList [(("max", 2), .builtin .max)]
    let scope : Scope := ⟨standard, functions, ∅, ∅, none, 0⟩
    parse scope "2e3*max(x, 1 + 1)-.5" = parse scope "2e3 * max(x, 1 + 1) - .5" ∧
    ∃ cause, parse scope "x-2e-3" = .error cause ∧
      (parse scope "x - 2e-3" = .error cause ∨ ShowsFront ["x", "-", "2e-3"] cause) := by
  intro functions scope
  have call : Base scope "max(x, 1 + 1)" :=
    @Base.call scope "max" "x, 1 + 1" (.builtin .max) (by decide) (by decide) (by decide)
  have product : Interleaved (Base scope) ["2e3", "*", "max(x, 1 + 1)", "-", ".5"] :=
    .cons (.of_isSome (by decide)) (by decide)
      (.cons call (by decide) (.last (.of_isSome (by decide))))
  have difference : Interleaved (Base scope) ["x", "-", "2e-3"] :=
    .cons (.name (by decide)) (by decide) (.last (.of_isSome (by decide)))
  exact ⟨(joined_pieces_parse_alike rfl product (by decide)).1 (by decide),
    (joined_pieces_parse_alike rfl difference (by decide)).2 ⟨"2e-3", by decide, by decide⟩⟩

/-- `2e-3 + 1` is a sum of two numbers, which is not recognized without the blanks. -/
theorem signed_exponent_needs_blanks :
    let scope : Scope := ⟨standard, ∅, ∅, ∅, none, 0⟩
    Interleaved (Base scope) ["2e-3", "+", "1"] ∧
    (∃ parsed, parse scope (" ".intercalate ["2e-3", "+", "1"]) = .ok parsed) ∧
    parse scope (String.join ["2e-3", "+", "1"]) = .error (.unrecognized "2e") := by
  intro scope
  have sum : Interleaved (Base scope) ["2e-3", "+", "1"] :=
    .cons (.of_isSome (by decide)) (by decide) (.last (.of_isSome (by decide)))
  have refused : (parse scope (String.join ["2e-3", "+", "1"])).map (fun _ => ()) =
      .error (.unrecognized "2e") := by decide +kernel
  exact ⟨sum, exists_ok (by decide +kernel), map_eq_error.1 refused⟩

end Parse

end Abacus
