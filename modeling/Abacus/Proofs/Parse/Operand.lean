import Abacus.Proofs.Parse.Cutting
import Abacus.Proofs.Parse.Fallible

/-!
# Reading operands

Which operand a text is read as: a number, a name, a text in parentheses or a call.
A text with a symbol at one of its ends is none.
-/

namespace Abacus.Parse

open Fallible Text Lexeme
open Grammar (standard Registered)

/-- Whether a parse that starts with created variables of some kind has a result and leaves created
    variables of that kind. -/
def Parsing.Reads {α : Type} (S : Table String Cell → Prop) (m : Parsing α) (a : α) : Prop :=
  ∀ created, S created → ∃ created', m.run created = .ok (a, created') ∧ S created'

namespace Parsing

variable {α β γ : Type} {S : Table String Cell → Prop}

theorem Reads.result (a : α) : Reads S (pure a) a := fun created kept => ⟨created, rfl, kept⟩

theorem Reads.bind {m : Parsing α} {f : α → Parsing β} {a : α} {b : β} (first : Reads S m a)
    (second : Reads S (f a) b) : Reads S (m >>= f) b := by
  intro created kept
  obtain ⟨between, ends, kept⟩ := first created kept
  obtain ⟨created', ends', kept⟩ := second between kept
  exact ⟨created', by rw [StateT.run_bind]; exact bind_eq_ok.2 ⟨_, ends, ends'⟩, kept⟩

theorem Reads.ofExcept {x : Except ParseError α} {a : α} (ends : x = .ok a) :
    Reads S (liftM x : Parsing α) a := by
  subst ends
  exact fun created kept => ⟨created, rfl, kept⟩

theorem Reads.mapM {f : α → Parsing β} {text : γ → α} {result : γ → β} {cs : List γ}
    (each : ∀ c ∈ cs, Reads S (f (text c)) (result c)) :
    Reads S ((cs.map text).mapM f) (cs.map result) := by
  induction cs with
  | nil => exact .result []
  | cons c cs inductionHypothesis =>
    rw [List.forall_mem_cons] at each
    rw [List.map_cons, List.mapM_cons]
    exact .bind each.1 (.bind (inductionHypothesis each.2) (.result _))

end Parsing

open Parsing

/-! ## Arguments -/

/-- Texts of expressions: not blank at their ends, and without a comma outside of parentheses. -/
structure Clean (text : List Char) : Prop where
  filled : text ≠ []
  trimmed : trim text = text
  nested : Nested (fun c => c ≠ ',') text

theorem Clean.not_allBlank {text : List Char} (clean : Clean text) : allBlank text = false := by
  cases blank : allBlank text with
  | false => rfl
  | true =>
    have nothing : trimStart text = [] := List.dropWhile_eq_nil_iff.2 (allBlank_iff.1 blank)
    have trimmed := clean.trimmed
    rw [trim, nothing] at trimmed
    exact absurd trimmed.symm clean.filled

theorem splitAtCommas_intercalate {text : List Char} {texts : List (List Char)}
    (clean : ∀ t ∈ text :: texts, Clean t) :
    splitAtCommas 0 ([',', ' '].intercalate (text :: texts)) = text :: texts.map (' ' :: ·) := by
  induction texts generalizing text with
  | nil =>
    have nested := (clean text List.mem_cons_self).nested
    have nothing : splitAtCommas 0 [] = [[]] := rfl
    have split := splitAtCommas_append nested 0 (fun _ _ => id) nothing
    rw [List.append_nil] at split
    rw [List.intercalate_singleton]
    exact split
  | cons next texts inductionHypothesis =>
    rw [List.forall_mem_cons] at clean
    have behind : splitAtCommas 0 (' ' :: [',', ' '].intercalate (next :: texts)) =
        (' ' :: next) :: texts.map (' ' :: ·) := by
      simp [splitAtCommas, inductionHypothesis clean.2]
    have comma : splitAtCommas 0 (',' :: ' ' :: [',', ' '].intercalate (next :: texts)) =
        [] :: (' ' :: next) :: texts.map (' ' :: ·) := by
      rw [splitAtCommas, if_pos ⟨rfl, rfl⟩, behind]
    have split := splitAtCommas_append clean.1.nested 0 (fun _ _ => id) comma
    rw [List.append_nil] at split
    rw [List.intercalate_cons_cons, List.append_assoc]
    exact split

theorem argumentTexts_intercalate {texts : List (List Char)} (clean : ∀ t ∈ texts, Clean t) :
    argumentTexts ([',', ' '].intercalate texts) = texts := by
  cases texts with
  | nil => rfl
  | cons text texts =>
    have blank : allBlank ([',', ' '].intercalate (text :: texts)) = false := by
      have first := (clean text List.mem_cons_self).not_allBlank
      cases texts with
      | nil => rwa [List.intercalate_singleton]
      | cons next texts =>
        rw [List.intercalate_cons_cons]
        simp only [allBlank, List.all_append, Bool.and_eq_false_iff] at first ⊢
        exact .inl (.inl first)
    have trims : ∀ t ∈ texts, trim (' ' :: t) = t := fun t member => by
      have trimmed := (clean t (List.mem_cons_of_mem text member)).trimmed
      calc trim (' ' :: t) = trim t := by simp [trim, trimStart, isBlank]
        _ = t := trimmed
    rw [argumentTexts, blank, if_neg Bool.false_ne_true, splitAtCommas_intercalate clean,
      List.map_cons, List.map_map, (clean text List.mem_cons_self).trimmed]
    refine congrArg (text :: ·) ((List.map_congr_left fun t member => ?_).trans (List.map_id _))
    exact trims t member

/-! ## Operands -/

theorem solid_of_words {text : List Char} (filled : text ≠ []) (words : ∀ c ∈ text, isWordChar c) :
    Solid text := by
  refine ⟨filled, .ofChars fun c member => ⟨words c member, ?_, ?_⟩⟩ <;>
    (rintro rfl; cases words _ member)

theorem solid_of_isName {name : String} (named : isName name.toList) : Solid name.toList :=
  solid_of_words (fun empty => by simp [empty, isName] at named) (isWordChar_of_isName named)

theorem roles?_of_solid {text : String} (solid : Solid text.toList) :
    standard.roles? text = none := by
  refine Option.eq_none_iff_forall_ne_some.2 fun roles known => ?_
  obtain ⟨c, tail, whole, mark⟩ := Grammar.exists_mark (Table.mem_keys known)
  obtain ⟨word, opens, _⟩ := isMark_iff.1 mark
  rcases solid.2.head?_eq (c := c) (by rw [whole]; rfl) with isWord | isOpen
  · exact Bool.noConfusion (word.symm.trans isWord)
  · exact opens isOpen

theorem isSymbol_of_isName {name : String} (named : isName name.toList) :
    standard.isSymbol name = false := by
  rw [Grammar.isSymbol, roles?_of_solid (solid_of_isName named)]
  rfl

section

variable {scope : Scope} {nested : NestedParser} {S : Table String Cell → Prop}

theorem betweenParens?_of_mark {text : List Char} {c : Char} (mark : isMark c)
    (ends : text.head? = some c ∨ text.getLast? = some c) : betweenParens? text = none := by
  obtain ⟨_, opens, closes, _, _⟩ := isMark_iff.1 mark
  refine Option.eq_none_iff_forall_ne_some.2 fun inner parens => ?_
  obtain ⟨first, last⟩ := ends_of_betweenParens? parens
  rcases ends with ends | ends
  · exact opens (Option.some.inj (ends.symm.trans first))
  · exact closes (Option.some.inj (ends.symm.trans last))

theorem startsName_of_mark {c : Char} (mark : isMark c) : startsName c = false := by
  refine Bool.eq_false_iff.2 fun starts => ?_
  exact Bool.noConfusion ((isWordChar_of_startsName starts).symm.trans (isMark_iff.1 mark).1)

theorem call?_of_mark {text : List Char} {c : Char} (mark : isMark c)
    (ends : text.head? = some c ∨ text.getLast? = some c) :
    call? scope nested text = pure none := by
  obtain ⟨_, opens, closes, _, _⟩ := isMark_iff.1 mark
  unfold call?
  dsimp only
  split
  · rfl
  · rename_i inner parens
    rw [if_pos]
    obtain ⟨_, last⟩ := ends_of_betweenParens? parens
    rcases ends with first | ends
    · -- The name would start with a character of the symbol.
      obtain ⟨rest, rfl⟩ := List.head?_eq_some_iff.1 first
      simp [opens, isName, startsName_of_mark mark]
    · -- The parentheses would close at the end of the text.
      have behind : text.getLast? = some ')' := by
        rw [← List.takeWhile_append_dropWhile (p := (· ≠ '(')) (l := text), List.getLast?_append,
          last]
        rfl
      exact absurd (Option.some.inj (ends.symm.trans behind)) closes

/-- A text that starts or ends with a character of a symbol is no operand. -/
theorem operand?_of_mark {text : List Char} {c : Char} (mark : isMark c)
    (ends : text.head? = some c ∨ text.getLast? = some c) :
    operand? scope nested text = pure none := by
  unfold operand?
  rw [Number.ofText?_of_mark mark ends, betweenParens?_of_mark mark ends,
    isName_of_mark mark (ends.elim List.mem_of_head? List.mem_of_getLast?), call?_of_mark mark ends]
  rfl

theorem operand?_of_symbol {symbol : String} (registered : Registered symbol) (rest : List Char) :
    operand? scope nested (symbol.toList ++ rest) = pure none := by
  obtain ⟨c, tail, whole, mark⟩ := Grammar.exists_mark registered
  exact operand?_of_mark mark (.inl (by simp [whole]))

theorem operand?_number {text : List Char} {a : Number} (found : Number.ofText? text = some a) :
    operand? scope nested text = pure (some (.literal (some a))) := by
  unfold operand?
  rw [found]

theorem operand?_parens {p : Char → Prop} {text : List Char} (balanced : Nested p text) :
    operand? scope nested ('(' :: (text ++ [')'])) =
      do return some (.parens ((← nested text).getD .void)) := by
  unfold operand?
  rw [Number.ofText?_parens, betweenParens?_parens balanced]

theorem reads_number {text : List Char} {a : Number} (found : Number.ofText? text = some a) :
    Reads S (operand? scope nested text) (some (.literal (some a))) := by
  rw [operand?_number found]
  exact .result _

theorem reads_parens {p : Char → Prop} {text : List Char} {e : Expr} (balanced : Nested p text)
    (inside : Reads S (nested text) (some e)) :
    Reads S (operand? scope nested ('(' :: (text ++ [')']))) (some (.parens e)) := by
  rw [operand?_parens balanced]
  exact .bind inside (.result _)

theorem betweenParens?_of_head {c : Char} (opens : c ≠ '(') (rest : List Char) :
    betweenParens? (c :: rest) = none := by
  unfold betweenParens?
  split
  · rename_i same
    exact absurd (List.cons.inj same).1 opens
  · rfl

theorem operand?_name {name : String} (named : isName name.toList)
    (other : scope.grammar.isSymbol name = false) :
    operand? scope nested name.toList = do return some (.cell (← scope.cell name)) := by
  have noParens : betweenParens? name.toList = none := by
    cases text : name.toList with
    | nil => rfl
    | cons d rest =>
      refine betweenParens?_of_head ?_ rest
      rintro rfl
      rw [text] at named
      cases named
  unfold operand?
  rw [Number.ofText?_of_isName named, noParens, named, String.ofList_toList, other]
  rfl

theorem reads_name {name : String} {c : Cell} (named : isName name.toList)
    (other : scope.grammar.isSymbol name = false) (reads : Reads S (scope.cell name) c) :
    Reads S (operand? scope nested name.toList) (some (.cell c)) := by
  rw [operand?_name named other]
  exact .bind reads (.result _)

theorem nested_intercalate {texts : List (List Char)} (clean : ∀ t ∈ texts, Clean t) :
    Nested (fun _ => True) ([',', ' '].intercalate texts) := by
  have loosen {text : List Char} (clean : Clean text) : Nested (fun _ => True) text :=
    clean.nested.weaken fun _ _ => True.intro
  induction texts with
  | nil => exact .nil _
  | cons text texts inductionHypothesis =>
    rw [List.forall_mem_cons] at clean
    cases texts with
    | nil =>
      rw [List.intercalate_singleton]
      exact loosen clean.1
    | cons next texts =>
      rw [List.intercalate_cons_cons]
      exact ((loosen clean.1).append (.ofChars (by simp))).append (inductionHypothesis clean.2)

theorem cut_call {name : List Char} (noParens : '(' ∉ name) (rest : List Char) :
    (name ++ '(' :: rest).takeWhile (· ≠ '(') = name ∧
      (name ++ '(' :: rest).dropWhile (· ≠ '(') = '(' :: rest := by
  have opens : ∀ c ∈ name, decide (c ≠ '(') = true := fun c member =>
    decide_eq_true fun same => noParens (same ▸ member)
  constructor
  · rw [List.takeWhile_append_of_pos opens]
    simp
  · rw [List.dropWhile_append_of_pos opens]
    simp

theorem noParens_of_isName {name : List Char} (named : isName name) : '(' ∉ name := fun member => by
  cases isWordChar_of_isName named '(' member

theorem operand?_called {p : Char → Prop} {f : Function} {name : String} {text : List Char}
    (named : isName name.toList) (balanced : Nested p text)
    (known : scope.functions.get? (name, (argumentTexts text).length) = some f) :
    operand? scope nested (name.toList ++ '(' :: (text ++ [')'])) = do
      let arguments ← (argumentTexts text).mapM fun text => do return (← nested text).getD .void
      return some (.call f arguments) := by
  have plain := noParens_of_isName named
  obtain ⟨taken, untaken⟩ := cut_call plain (text ++ [')'])
  have noParens : betweenParens? (name.toList ++ '(' :: (text ++ [')'])) = none := by
    cases first : name.toList with
    | nil =>
      rw [first] at named
      cases named
    | cons c rest => exact betweenParens?_of_head (fun same => plain (by simp [first, same])) _
  have noName : isName (name.toList ++ '(' :: (text ++ [')'])) = false := by
    cases whole : isName (name.toList ++ '(' :: (text ++ [')'])) with
    | false => rfl
    | true => cases isWordChar_of_isName whole '(' (by simp)
  unfold operand?
  rw [Number.ofText?_call named, noParens, noName]
  dsimp only
  rw [Bool.false_and, if_neg Bool.false_ne_true]
  unfold call?
  dsimp only
  rw [taken, untaken, betweenParens?_parens balanced, named]
  dsimp only
  rw [if_neg (by decide), String.ofList_toList, known]

theorem operand?_call {f : Function} {name : String} {texts : List (List Char)}
    (named : isName name.toList) (known : scope.functions.get? (name, texts.length) = some f)
    (clean : ∀ t ∈ texts, Clean t) :
    operand? scope nested (name.toList ++ '(' :: ([',', ' '].intercalate texts ++ [')'])) = do
      let arguments ← texts.mapM fun text => do return (← nested text).getD .void
      return some (.call f arguments) := by
  have texts := argumentTexts_intercalate clean
  rw [operand?_called named (nested_intercalate clean) (by rwa [texts]), texts]

theorem reads_call {f : Function} {name : String} {arguments : List Expr}
    (named : isName name.toList) (known : scope.functions.get? (name, arguments.length) = some f)
    {texts : Expr → List Char} {results : Expr → Expr} (clean : ∀ e ∈ arguments, Clean (texts e))
    (each : ∀ e ∈ arguments, Reads S (nested (texts e)) (some (results e))) :
    Reads S (operand? scope nested
        (name.toList ++ '(' :: ([',', ' '].intercalate (arguments.map texts) ++ [')'])))
      (some (.call f (arguments.map results))) := by
  have argument (e : Expr) (member : e ∈ arguments) :
      Reads S (do return (← nested (texts e)).getD .void) (results e) :=
    .bind (each e member) (.result _)
  rw [operand?_call named (by rwa [List.length_map]) (List.forall_mem_map.2 clean)]
  exact .bind (.mapM argument) (.result _)

end

end Abacus.Parse
