import Abacus.Grammar.Standard
import Abacus.Proofs.Parse.Cutting
import Abacus.Proofs.Parse.Fallible
import Abacus.Proofs.Parse.Squeezing
import Abacus.Proofs.Table
import Abacus.Proofs.Text.Words
import Abacus.Proofs.Tokens.Squeezing

/-!
# Parsing and white space

What a line parses to does not depend on what white space stands in it, only on where there is some.
Every function of the parser does on a squeezed text what it does on the text itself; only the texts
that errors quote differ, so what is compared of a refusal is its kind.
-/

namespace Abacus

open Text

/-- The kinds of refusals, without the texts that they quote. -/
inductive ParseError.Kind where
  | unrecognized
  | operandExpected
  | unbalanced
  | operatorExpected
  | tokenizer
  deriving DecidableEq

def ParseError.kind : ParseError → Kind
  | .unrecognized _ => .unrecognized
  | .operandExpected _ => .operandExpected
  | .unbalanced _ => .unbalanced
  | .operatorExpected _ => .operatorExpected
  | .tokenizer _ => .tokenizer

namespace Parse

open Fallible

/-- Whether a parse creates the same variables as another one and makes `h` of its result, or both
    are refused for the same kind of cause. -/
def Parsing.Agrees {α β : Type} (h : β → α) (m : Parsing α) (m' : Parsing β) : Prop :=
  ∀ created, (m.run created).mapError ParseError.kind =
    ((m'.run created).map fun (b, t) => (h b, t)).mapError ParseError.kind

namespace Parsing

variable {α β γ δ : Type} {h : β → α} {k : δ → γ}

theorem Agrees.refl (m : Parsing α) : Agrees id m m := by
  intro created
  cases m.run created <;> rfl

theorem Agrees.result (h : β → α) (b : β) : Agrees h (pure (h b) : Parsing α) (pure b) :=
  fun _ => rfl

theorem Agrees.failure {cause cause' : ParseError} (same : cause.kind = cause'.kind) :
    Agrees h (throw cause : Parsing α) (throw cause') :=
  fun _ => congrArg Except.error same

theorem Agrees.cases {m : Parsing α} {m' : Parsing β} (agrees : Agrees h m m')
    (created : Table String Cell) :
    (∃ b t, m.run created = .ok (h b, t) ∧ m'.run created = .ok (b, t)) ∨
      ∃ cause cause', m.run created = .error cause ∧ m'.run created = .error cause' ∧
        cause.kind = cause'.kind := by
  have same := mapError_eq_iff.1 (agrees created)
  cases ends : m'.run created with
  | ok result =>
    obtain ⟨b, t⟩ := result
    rw [ends] at same
    rcases same with ⟨_, first, second⟩ | ⟨_, _, _, impossible, _⟩
    · cases second
      exact .inl ⟨b, t, first, rfl⟩
    · cases impossible
  | error cause' =>
    rw [ends] at same
    rcases same with ⟨_, _, impossible⟩ | ⟨cause, _, first, second, same⟩
    · cases impossible
    · cases second
      exact .inr ⟨cause, cause', first, rfl, same⟩

theorem Agrees.bind {m : Parsing α} {m' : Parsing β} {f : α → Parsing γ} {f' : β → Parsing δ}
    (first : Agrees h m m') (second : ∀ b, Agrees k (f (h b)) (f' b)) :
    Agrees k (m >>= f) (m' >>= f') := by
  intro created
  rw [StateT.run_bind, StateT.run_bind]
  rcases first.cases created with ⟨b, t, ends, ends'⟩ | ⟨cause, cause', failed, failed', same⟩
  · rw [ends, ends']
    exact second b t
  · rw [failed, failed']
    exact congrArg Except.error same

theorem Agrees.mapError_run {m m' : Parsing α} (agrees : Agrees id m m')
    (f : α × Table String Cell → γ) (created : Table String Cell) :
    ((m.run created).map f).mapError ParseError.kind =
      ((m'.run created).map f).mapError ParseError.kind := by
  rcases agrees.cases created with ⟨b, t, ends, ends'⟩ | ⟨cause, cause', failed, failed', same⟩
  · rw [ends, ends']
    rfl
  · rw [failed, failed']
    exact congrArg Except.error same

theorem Agrees.mapM {g : δ → γ} {f : γ → Parsing α} {f' : δ → Parsing β} {as : List δ}
    (each : ∀ a ∈ as, Agrees h (f (g a)) (f' a)) :
    Agrees (List.map h) ((as.map g).mapM f) (as.mapM f') := by
  induction as with
  | nil => exact .result (List.map h) []
  | cons a as inductionHypothesis =>
    rw [List.forall_mem_cons] at each
    rw [List.map_cons, List.mapM_cons, List.mapM_cons]
    exact .bind each.1 fun b => .bind (inductionHypothesis each.2) fun bs =>
      .result (List.map h) (b :: bs)

theorem Agrees.mapM_id {g : δ → γ} {f : γ → Parsing α} {f' : δ → Parsing α} {as : List δ}
    (each : ∀ a ∈ as, Agrees id (f (g a)) (f' a)) : Agrees id ((as.map g).mapM f) (as.mapM f') :=
  List.map_id_fun (α := α) ▸ Agrees.mapM each

end Parsing

open Parsing

/-! ## Operands -/

section

variable {scope : Scope} {cuts : Cuts} {nested : NestedParser}

theorem squeezed_cases (text : List Char) :
    (text.any isBlank ∧ (squeezed text).any isBlank) ∨ squeezed text = text := by
  cases spaced : text.any isBlank with
  | true => exact .inl ⟨rfl, (any_squeezed text).trans spaced⟩
  | false => exact .inr (squeezed_of_filled (by simpa using spaced))

variable (inside : ∀ text, Agrees id (nested (squeezed text)) (nested text))

include inside

theorem call?_agrees (text : List Char) :
    Agrees id (call? scope nested (squeezed text)) (call? scope nested text) := by
  unfold call?
  dsimp only
  rw [takeWhile_squeezedFrom, dropWhile_squeezedFrom, betweenParens?_squeezed]
  cases betweenParens? (text.dropWhile (· ≠ '(')) with
  | none => exact .result id none
  | some inner =>
    dsimp only [Option.map_some]
    rcases squeezed_cases (text.takeWhile (· ≠ '(')) with ⟨spaced, spaced'⟩ | same
    · rw [Lexeme.isName_of_spaced spaced, Lexeme.isName_of_spaced spaced']
      exact .result id none
    · rw [← squeezed, same, argumentTexts_squeezed, List.length_map]
      split
      · exact .result id none
      · split
        · exact .result id none
        · exact .bind (.mapM_id fun text _ => .bind (inside text) fun _ => .refl _) fun _ => .refl _

theorem operand?_agrees (text : List Char) :
    Agrees id (operand? scope nested (squeezed text)) (operand? scope nested text) := by
  rcases squeezed_cases text with ⟨spaced, spaced'⟩ | same
  · unfold operand?
    rw [Number.ofText?_of_spaced spaced, Number.ofText?_of_spaced spaced',
      Lexeme.isName_of_spaced spaced, Lexeme.isName_of_spaced spaced', betweenParens?_squeezed]
    cases betweenParens? text with
    | none => exact call?_agrees inside text
    | some inner => exact .bind (inside inner) fun _ => .refl _
  · rw [same]
    exact .refl _

/-! ## Lines -/

theorem fragmentItem_agrees (fragment : List Char) :
    Agrees id (fragmentItem scope nested (squeezed fragment))
      (fragmentItem scope nested fragment) := by
  refine .bind (operand?_agrees inside fragment) fun e => ?_
  cases e with
  | some e => exact .refl _
  | none => exact .failure rfl

end

section

variable {scope : Scope} {cuts : Cuts} {nested : NestedParser}
  (filled : ∀ symbol ∈ scope.grammar.symbols, ∀ c ∈ symbol.toList, isBlank c = false)

include filled

theorem filled_of_mem_keys {symbol : String} (member : symbol ∈ scope.grammar.roles.keys) :
    ∀ c ∈ symbol.toList, isBlank c = false :=
  filled symbol (List.mem_mergeSort.2 member)

theorem roles?_of_spaced {text : List Char} (spaced : text.any isBlank) :
    scope.grammar.roles? (String.ofList text) = none := by
  cases found : scope.grammar.roles? (String.ofList text) with
  | none => rfl
  | some roles =>
    obtain ⟨c, member, blank⟩ := List.any_eq_true.1 spaced
    have free := filled_of_mem_keys filled (Table.mem_keys found) c
    rw [String.toList_ofList] at free
    exact Bool.noConfusion ((free member).symm.trans blank)

theorem squeezes_of_ofGrammar (made : Cuts.ofGrammar scope.grammar = .ok cuts) :
    cuts.atBlanks.config.Squeezes ∧ cuts.aroundSymbols.config.Squeezes ∧
      cuts.aroundParens.config.Squeezes := by
  cases made
  have opens : ∀ c ∈ "(".toList, isBlank c = false := fun c member =>
    List.mem_singleton.1 member ▸ rfl
  have closing : ∀ c ∈ ")".toList, isBlank c = false := fun c member =>
    List.mem_singleton.1 member ▸ rfl
  have parens : ∀ symbol ∈ ["(", ")"], ∀ c ∈ symbol.toList, isBlank c = false :=
    List.forall_mem_cons.2 ⟨opens, List.forall_mem_singleton.2 closing⟩
  refine ⟨⟨parens, fun _ => ⟨rfl, rfl⟩⟩, ⟨fun symbol member => ?_, nofun⟩,
    ⟨fun symbol member => ?_, nofun⟩⟩
  · have named : symbol ∈ scope.grammar.roles.keys ∨ symbol ∈ ["(", ")"] := by
      simpa [Tokenizer.Config.symbols, parenConfig] using member
    exact named.elim (filled_of_mem_keys filled) (parens symbol)
  · have twice : symbol ∈ ["(", ")"] ++ ["(", ")"] := member
    exact (List.mem_append.1 twice).elim (parens symbol) (parens symbol)

variable (made : Cuts.ofGrammar scope.grammar = .ok cuts)
  (inside : ∀ text, Agrees id (nested (squeezed text)) (nested text))

include made inside

theorem segmentItems_agrees (segment : List Char) :
    Agrees id (segmentItems scope cuts nested (squeezed segment))
      (segmentItems scope cuts nested segment) := by
  obtain ⟨_, _, squeezes⟩ := squeezes_of_ofGrammar filled made
  rcases squeezed_cases segment with ⟨spaced, spaced'⟩ | same
  · unfold segmentItems
    rw [roles?_of_spaced filled spaced, roles?_of_spaced filled spaced']
    refine .bind (operand?_agrees inside segment) fun e => ?_
    cases e with
    | some e => exact .refl _
    | none =>
      dsimp only [id]
      rw [Tokenizer.tokens_squeezed squeezes]
      exact .mapM_id fun fragment _ => fragmentItem_agrees inside fragment
  · rw [same]
    exact .refl _

def squeezedToken (token : List Char × Option Expr) : List Char × Option Expr :=
  (squeezed token.1, token.2)

theorem tokenItems_agrees (token : List Char × Option Expr) :
    Agrees id (tokenItems scope cuts nested (squeezedToken token))
      (tokenItems scope cuts nested token) := by
  obtain ⟨_, squeezes, _⟩ := squeezes_of_ofGrammar filled made
  obtain ⟨text, e⟩ := token
  cases e with
  | some e => exact .refl _
  | none =>
    unfold squeezedToken tokenItems
    dsimp only
    rw [Tokenizer.tokens_squeezed squeezes]
    exact .bind (.mapM_id fun segment _ => segmentItems_agrees filled made inside segment)
      fun _ => .refl _

theorem parseWith_agrees (wholeLine : Bool) (text : List Char) :
    Agrees id (parseWith scope cuts nested wholeLine (squeezed text))
      (parseWith scope cuts nested wholeLine text) := by
  obtain ⟨squeezes, _, _⟩ := squeezes_of_ofGrammar filled made
  have tried (token : List Char) : Agrees squeezedToken
      (do return (squeezed token, ← operand? scope nested (squeezed token)))
      (do return (token, ← operand? scope nested token)) :=
    .bind (operand?_agrees inside token) fun e => .result squeezedToken (token, e)
  have leading : scope.leadingOf wholeLine (squeezed text) = scope.leadingOf wholeLine text := by
    rw [Scope.leadingOf, head?_squeezed, Scope.leadingOf]
  unfold parseWith
  rw [Tokenizer.tokens_squeezed squeezes, leading]
  refine .bind (.mapM fun token _ => tried token) fun tokens => ?_
  have items := Agrees.mapM_id fun token (_ : token ∈ tokens) =>
    tokenItems_agrees filled made inside token
  match tokens, items with
  | [], _ => exact .refl _
  | [(_, some e)], _ => exact .refl _
  | [(_, none)], items => exact .bind items fun _ => .refl _
  | (_, some _) :: _ :: _, items => exact .bind items fun _ => .refl _
  | (_, none) :: _ :: _, items => exact .bind items fun _ => .refl _

end

theorem parseToDepth_agrees {scope : Scope} {cuts : Cuts}
    (filled : ∀ symbol ∈ scope.grammar.symbols, ∀ c ∈ symbol.toList, isBlank c = false)
    (made : Cuts.ofGrammar scope.grammar = .ok cuts) (depth : Nat) (wholeLine : Bool)
    (text : List Char) : Agrees id (parseToDepth scope cuts depth wholeLine (squeezed text))
      (parseToDepth scope cuts depth wholeLine text) := by
  induction depth generalizing wholeLine text with
  | zero => exact .refl _
  | succ depth inductionHypothesis =>
    exact parseWith_agrees filled made (inductionHypothesis false) wholeLine text

/-! ## Main result -/

/-- Parsing a squeezed text does what parsing the text does. -/
theorem parse_squeezed {scope : Scope}
    (filled : ∀ symbol ∈ scope.grammar.symbols, ∀ c ∈ symbol.toList, isBlank c = false)
    (line : String) :
    (parse scope (String.ofList (squeezed line.toList))).mapError ParseError.kind =
      (parse scope line).mapError ParseError.kind := by
  obtain ⟨cuts, made⟩ := exists_cuts scope.grammar
  have agrees := parseToDepth_agrees filled made (line.toList.count '(' + 1) true line.toList
  rw [parse_eq made, parse_eq made, String.toList_ofList, balanced_squeezed, squeezed,
    count_squeezedFrom _ _ rfl]
  cases balanced line.toList with
  | false => rfl
  | true =>
    rw [if_pos rfl, if_pos rfl]
    exact agrees.mapError_run (fun result => Parsed.mk result.1 result.2) ∅

/-- In a grammar whose symbols have no white space in them, lines that differ only in what white
    space stands in them parse to the same tree and create the same variables, or both are refused
    for causes of the same kind. -/
theorem respaced_lines_parse_alike {scope : Scope}
    (filled : ∀ symbol ∈ scope.grammar.symbols, ∀ c ∈ symbol.toList, isBlank c = false)
    {line line' : String} (respaced : Respaced line.toList line'.toList) :
    (∃ parsed, parse scope line = .ok parsed ∧ parse scope line' = .ok parsed) ∨
      ∃ cause cause', parse scope line = .error cause ∧ parse scope line' = .error cause' ∧
        cause.kind = cause'.kind := by
  refine mapError_eq_iff.1 ?_
  rw [← parse_squeezed filled line, respaced_iff.1 respaced, parse_squeezed filled line']

/-- In the standard grammar a product and a text that is no symbol are read in the same way when
    they are continued on further lines. -/
theorem continued_lines_parse_alike :
    let scope : Scope := ⟨Grammar.standard, ∅, ∅, ∅, none, 0⟩
    (∃ parsed, parse scope "2 *( x\t+ y )" = .ok parsed ∧
      parse scope "2\n*(\tx +  y\n)" = .ok parsed) ∧
    ∃ cause cause', parse scope " x ~( y\t)" = .error cause ∧
      parse scope "\nx\n~( \ny )" = .error cause' ∧ cause.kind = cause'.kind := by
  intro scope
  have filled : ∀ symbol ∈ scope.grammar.symbols, ∀ c ∈ symbol.toList, isBlank c = false := by
    intro symbol member c inside
    have marks := Grammar.isMark_of_registered symbol (List.mem_mergeSort.1 member) c inside
    exact (isMark_iff.1 marks).2.2.2.2
  have reads : (parse scope "2 *( x\t+ y )").toOption.isSome := by decide +kernel
  have refused : (parse scope " x ~( y\t)").toOption.isNone := by decide +kernel
  constructor
  · refine (respaced_lines_parse_alike filled (by decide +kernel)).resolve_right ?_
    rintro ⟨cause, _, failed, _⟩
    rw [failed] at reads
    cases reads
  · refine (respaced_lines_parse_alike filled (by decide +kernel)).resolve_left ?_
    rintro ⟨parsed, ends, _⟩
    rw [ends] at refused
    cases refused

end Parse

end Abacus
