import Abacus.Grammar.Standard
import Abacus.Proofs.Parse.Separation

/-!
# Why a line is refused

A line is refused for a text that is nothing known, for unbalanced parentheses or
for a modifier without an operand.  It is never refused because an operator is
missing between two operands, and never because the grammar cannot be searched.
-/

namespace Abacus

/-- Whether a refusal is one that a line can meet with: any but a missing operator and a tokenizer
    that cannot be configured. -/
def ParseError.IsOrdinary : ParseError → Prop
  | .operatorExpected _ | .tokenizer _ => False
  | .unrecognized _ | .operandExpected _ | .unbalanced _ => True

namespace Parse

open Fallible

def Parsing.Gives {α : Type} (P : α → Prop) (m : Parsing α) : Prop :=
  ∀ created, (∀ a t, m.run created = .ok (a, t) → P a) ∧
    ∀ cause, m.run created = .error cause → cause.IsOrdinary

namespace Parsing

variable {α β : Type} {P : α → Prop} {Q : β → Prop}

theorem Gives.result {a : α} (good : P a) : Gives P (pure a : Parsing α) := by
  intro created
  refine ⟨fun b t ends => ?_, fun _ impossible => nomatch impossible⟩
  cases ends
  exact good

theorem Gives.failure {cause : ParseError} (ordinary : cause.IsOrdinary) :
    Gives P (throw cause : Parsing α) := by
  intro created
  refine ⟨fun _ _ ends => ?_, fun other failed => ?_⟩
  · cases ends
  · cases failed
    exact ordinary

theorem Gives.bind {m : Parsing α} {f : α → Parsing β} (first : Gives P m)
    (second : ∀ a, P a → Gives Q (f a)) : Gives Q (m >>= f) := by
  intro created
  rw [StateT.run_bind]
  obtain ⟨good, ordinary⟩ := first created
  refine ⟨fun b t ends => ?_, fun cause failed => ?_⟩
  · obtain ⟨⟨a, u⟩, left, right⟩ := bind_eq_ok.1 ends
    exact (second a (good a u left) u).1 b t right
  · rcases bind_eq_error.1 failed with failed | ⟨⟨a, u⟩, left, failed⟩
    · exact ordinary cause failed
    · exact (second a (good a u left) u).2 cause failed

theorem Gives.mapM {f : α → Parsing β} {as : List α} (each : ∀ a ∈ as, Gives Q (f a)) :
    Gives (fun bs => ∀ b ∈ bs, Q b) (as.mapM f) := by
  induction as with
  | nil => exact .result fun _ member => nomatch member
  | cons a rest inductionHypothesis =>
    rw [List.forall_mem_cons] at each
    rw [List.mapM_cons]
    exact .bind each.1 fun b good => .bind (inductionHypothesis each.2) fun bs others =>
      .result (List.forall_mem_cons.2 ⟨good, others⟩)

theorem Gives.ofExcept {x : Except ParseError α} (good : ∀ a, x = .ok a → P a)
    (ordinary : ∀ cause, x = .error cause → cause.IsOrdinary) :
    Gives P (liftM x : Parsing α) := by
  intro created
  cases x with
  | ok a =>
    refine ⟨fun b t ends => ?_, fun _ impossible => nomatch impossible⟩
    cases ends
    exact good a rfl
  | error cause =>
    refine ⟨fun _ _ ends => ?_, fun other failed => ?_⟩
    · cases ends
    · cases failed
      exact ordinary cause rfl

end Parsing

open Parsing

/-! ## Operands -/

section

variable {scope : Scope} {nested : NestedParser}
  (inside : ∀ text, Gives (fun _ => True) (nested text))

theorem cell_gives (scope : Scope) (name : String) :
    Gives (fun _ => True) (scope.cell name) := by
  have reads : Gives (fun _ => True) (get : Parsing (Table String Cell)) :=
    fun _ => ⟨fun _ _ _ => True.intro, fun _ impossible => nomatch impossible⟩
  refine .bind reads fun created _ => ?_
  split
  · exact .result True.intro
  · have writes (created : Table String Cell) : Gives (fun _ => True) (set created : Parsing PUnit) :=
      fun _ => ⟨fun _ _ _ => True.intro, fun _ impossible => nomatch impossible⟩
    exact .bind (writes _) fun _ _ => .result True.intro

include inside

theorem call?_gives (text : List Char) : Gives (fun _ => True) (call? scope nested text) := by
  unfold call?
  dsimp only
  split
  · exact .result True.intro
  · split
    · exact .result True.intro
    · split
      · exact .result True.intro
      · have arguments (text : List Char) :
            Gives (fun _ => True) (do return (← nested text).getD .void) :=
          .bind (inside text) fun _ _ => .result True.intro
        exact .bind (.mapM fun text _ => arguments text) fun _ _ => .result True.intro

theorem operand?_gives (text : List Char) : Gives (fun _ => True) (operand? scope nested text) := by
  unfold operand?
  split
  · exact .result True.intro
  · split
    · exact .bind (inside _) fun _ _ => .result True.intro
    · split
      · exact .bind (cell_gives scope _) fun _ _ => .result True.intro
      · exact call?_gives inside text

/-! ## Items -/

theorem fragmentItem_gives (fragment : List Char) :
    Gives (Item.Of scope.grammar) (fragmentItem scope nested fragment) := by
  refine .bind (operand?_gives inside fragment) fun e _ => ?_
  cases e with
  | some e => exact .result (.operand e)
  | none => exact .failure True.intro

theorem segmentItems_gives (cuts : Cuts) (segment : List Char) :
    Gives (fun items => ∀ i ∈ items, i.Of scope.grammar)
      (segmentItems scope cuts nested segment) := by
  unfold segmentItems
  split
  · rename_i roles found
    exact .result (List.forall_mem_singleton.2 (.symbol found))
  · refine .bind (operand?_gives inside segment) fun e _ => ?_
    cases e with
    | some e => exact .result (List.forall_mem_singleton.2 (.operand e))
    | none => exact .mapM fun fragment _ => fragmentItem_gives inside fragment

theorem tokenItems_gives (cuts : Cuts) (token : List Char × Option Expr) :
    Gives (fun items => ∀ i ∈ items, i.Of scope.grammar) (tokenItems scope cuts nested token) := by
  obtain ⟨text, e⟩ := token
  cases e with
  | some e => exact .result (List.forall_mem_singleton.2 (.operand e))
  | none =>
    refine .bind (.mapM fun segment _ => segmentItems_gives inside cuts segment) fun items of => ?_
    exact .result fun i member => by
      obtain ⟨some, among, member⟩ := List.mem_flatten.1 member
      exact of some among i member

end

/-! ## Lines -/

theorem fits_of_accepted {p : Grammar.Plan} {g : Grammar} (accepted : p.toGrammar = .ok g)
    {i : Item} (of : i.Of g) (decided : i.isDecided) : (Part.item i).Fits g.tiers 0 := by
  cases of with
  | operand e => exact True.intro
  | symbol found => cases decided
  | operator found operator =>
    obtain ⟨associativity, members, tier, _⟩ :=
      (Grammar.fit_of_toGrammar accepted found).operator operator
    exact ⟨Nat.zero_le _, associativity, members, tier⟩
  | @before text roles role found before =>
    have named : roles.modifier .before = some role := before
    obtain ⟨entries, _, tier, _⟩ := (Grammar.fit_of_toGrammar accepted found).modifier named
    exact ⟨Nat.zero_le _, entries, tier⟩
  | @after text roles role found after =>
    have named : roles.modifier .after = some role := after
    obtain ⟨entries, _, tier, _⟩ := (Grammar.fit_of_toGrammar accepted found).modifier named
    exact ⟨Nat.zero_le _, entries, tier⟩

theorem onlyMissing_toExpr {p : Grammar.Plan} {g : Grammar} (accepted : p.toGrammar = .ok g)
    {l : Line Item} (apart : l.toList.IsChain Item.Apart)
    (of : ∀ i ∈ l.toList, i.Of g ∧ i.isDecided) : OnlyMissing (l.toExpr g) := by
  refine onlyMissing_groupTiers ⟨?_, fun q member => ?_⟩
  · exact (List.isChain_map Part.item).2 apart
  · obtain ⟨i, among, rfl⟩ := List.mem_map.1 member
    exact fits_of_accepted accepted (of i among).1 (of i among).2

theorem isOrdinary_of_decideRoles {afterOperand : Bool} {items : List Item} {cause : ParseError}
    (failed : decideRoles afterOperand items = .error cause) : cause.IsOrdinary := by
  induction items generalizing afterOperand with
  | nil => cases failed
  | cons item rest inductionHypothesis =>
    rcases bind_eq_error.1 failed with failed | ⟨first, _, failed⟩
    · unfold decideItem at failed
      split at failed
      · split at failed
        · cases failed
        · cases failed
          exact True.intro
      · cases failed
    · rcases bind_eq_error.1 failed with failed | ⟨more, _, failed⟩
      · exact inductionHypothesis failed
      · cases failed

theorem of_decideRoles {g : Grammar} {afterOperand : Bool} {items : List Item}
    (of : ∀ i ∈ items, i.Of g) {decided : List (Item × Bool)}
    (ends : decideRoles afterOperand items = .ok decided) :
    ∀ entry ∈ decided, entry.1.Of g ∧ entry.1.isDecided := by
  induction items generalizing afterOperand decided with
  | nil =>
    cases ends
    exact fun _ member => nomatch member
  | cons item rest inductionHypothesis =>
    rw [List.forall_mem_cons] at of
    obtain ⟨first, splices, more, decides, _, decidesRest, rfl⟩ := decideRoles_cons_eq_ok ends
    exact List.forall_mem_cons.2 ⟨of.1.decide decides, inductionHypothesis of.2 decidesRest⟩

/-- After its roles are decided, and with a leading operand or without one, the items of a line are
    apart. -/
theorem apart_of_decide {g : Grammar} {items : List Item} {l : Line Item}
    (ends : (Line.ofList items).decide g = .ok l) (leading : Option Expr) :
    (l.withLeading leading).toList.IsChain Item.Apart := by
  obtain ⟨decided, decides, represents⟩ := Line.represents_decide ends
  have apart := (apart_of_decideRoles g.default decides).1
  rcases represents.withLeading leading with same | ⟨e, role, rest, _, first, represents⟩
  · rwa [same, represents.toList]
  · rw [represents.toList]
    refine List.isChain_cons.2 ⟨fun i member both => ?_, apart⟩
    rw [first] at member
    cases member
    cases both.2

theorem of_decide {p : Grammar.Plan} {g : Grammar} (accepted : p.toGrammar = .ok g)
    {items : List Item} (of : ∀ i ∈ items, i.Of g) {l : Line Item}
    (ends : (Line.ofList items).decide g = .ok l) (leading : Option Expr) :
    ∀ i ∈ (l.withLeading leading).toList, i.Of g ∧ i.isDecided := by
  obtain ⟨decided, decides, represents⟩ := Line.represents_decide ends
  obtain ⟨roles, found, operator⟩ := Grammar.default_of_toGrammar accepted
  have items_of : ∀ i ∈ Line.spliced (.operator g.default) decided, i.Of g ∧ i.isDecided := by
    intro i member
    obtain ⟨⟨first, splices⟩, among, member⟩ := List.mem_flatMap.1 member
    have given := of_decideRoles of decides _ among
    cases splices with
    | false =>
      cases List.mem_singleton.1 member
      exact given
    | true =>
      rcases List.mem_cons.1 member with rfl | member
      · exact given
      · cases List.mem_singleton.1 member
        exact ⟨.operator found operator, rfl⟩
  rcases represents.withLeading leading with same | ⟨e, role, rest, _, first, represents⟩
  · rwa [same, represents.toList]
  · rw [represents.toList]
    exact List.forall_mem_cons.2 ⟨⟨.operand e, rfl⟩, items_of⟩

theorem parseWith_gives {p : Grammar.Plan} {scope : Scope}
    (accepted : p.toGrammar = .ok scope.grammar) (cuts : Cuts) {nested : NestedParser}
    (inside : ∀ text, Gives (fun _ => True) (nested text)) (wholeLine : Bool) (text : List Char) :
    Gives (fun _ => True) (parseWith scope cuts nested wholeLine text) := by
  have token (token : List Char) :
      Gives (fun _ => True) (do return (token, ← operand? scope nested token)) :=
    .bind (operand?_gives inside token) fun _ _ => .result True.intro
  refine .bind (.mapM fun text _ => token text) fun tokens _ => ?_
  split
  · exact .result True.intro
  · exact .result True.intro
  · refine .bind (.mapM fun token _ => tokenItems_gives inside cuts token) fun items of => ?_
    have of (i : Item) (member : i ∈ items.flatten) : i.Of scope.grammar := by
      obtain ⟨some, among, member⟩ := List.mem_flatten.1 member
      exact of some among i member
    refine .bind (.ofExcept (P := fun l => (Line.ofList items.flatten).decide scope.grammar = .ok l)
      (fun l ends => ends) fun cause failed => ?_) fun l ends => ?_
    · rcases bind_eq_error.1 failed with failed | ⟨_, _, failed⟩
      · exact isOrdinary_of_decideRoles failed
      · cases failed
    · have missing := onlyMissing_toExpr accepted
        (apart_of_decide ends (scope.leadingOf wholeLine text))
        (of_decide accepted of ends (scope.leadingOf wholeLine text))
      refine .bind (.ofExcept (P := fun _ => True) (fun _ _ => True.intro) fun cause failed => ?_)
        fun _ _ => .result True.intro
      obtain ⟨symbol, rfl⟩ := missing cause failed
      exact True.intro

theorem parseToDepth_gives {p : Grammar.Plan} {scope : Scope}
    (accepted : p.toGrammar = .ok scope.grammar) (cuts : Cuts) (depth : Nat) (wholeLine : Bool)
    (text : List Char) : Gives (fun _ => True) (parseToDepth scope cuts depth wholeLine text) := by
  induction depth generalizing wholeLine text with
  | zero => exact .result True.intro
  | succ depth inductionHypothesis =>
    exact parseWith_gives accepted cuts (inductionHypothesis false) wholeLine text

theorem isOrdinary_of_parse {p : Grammar.Plan} {scope : Scope}
    (accepted : p.toGrammar = .ok scope.grammar) {line : String} {cause : ParseError}
    (failed : parse scope line = .error cause) : cause.IsOrdinary := by
  obtain ⟨cuts, configured⟩ := exists_cuts scope.grammar
  unfold parse at failed
  dsimp only at failed
  split at failed
  · cases failed
    exact True.intro
  · rw [configured] at failed
    rcases bind_eq_error.1 failed with impossible | ⟨cuts', same, failed⟩
    · cases impossible
    · rcases bind_eq_error.1 failed with failed | ⟨_, _, impossible⟩
      · exact (parseToDepth_gives accepted cuts' _ true line.toList ∅).2 cause failed
      · cases impossible

/-! ## Main result -/

/-- In every accepted grammar no line is refused because an operator is missing: the decided items
    of a line are apart, and items that are apart are grouped or lack the operand of a modifier. -/
theorem operator_never_missing {p : Grammar.Plan} {g : Grammar} (accepted : p.toGrammar = .ok g) :
    (∀ (scope : Scope) (line : String) (cause : ParseError), scope.grammar = g →
      parse scope line = .error cause → cause.IsOrdinary) ∧
    (∀ (items : List Item) (l : Line Item) (leading : Option Expr),
      (Line.ofList items).decide g = .ok l →
        (l.withLeading leading).toList.IsChain Item.Apart) ∧
    ∀ l : Line Item, l.toList.IsChain Item.Apart → (∀ i ∈ l.toList, i.Of g ∧ i.isDecided) →
      OnlyMissing (l.toExpr g) := by
  refine ⟨fun scope line cause same failed => ?_, fun items l leading ends => ?_,
    fun l apart of => onlyMissing_toExpr accepted apart of⟩
  · subst same
    exact isOrdinary_of_parse accepted failed
  · exact apart_of_decide ends leading

/-- The standard grammar multiplies operands that meet.  A line of three is refused because `$` has
    no operand, and its six items are decided to eight that are apart. -/
theorem dangling_modifier_is_refused :
    let scope : Scope := ⟨Grammar.standard, ∅, ∅, ∅, none, 0⟩
    let items : List Item := [.operand (.literal (some (.integer 2))),
      .operand (.parens (.cell ⟨0, "x", .variable⟩)), .operand (.cell ⟨1, "y", .variable⟩)] ++
      ["!", "+", "$"].filterMap fun symbol =>
        (Grammar.standard.roles.get? symbol).map (.symbol symbol)
    (parse scope "2 (x) y! + $" = .error (.operandExpected "$") ∧
      (ParseError.operandExpected "$").IsOrdinary) ∧
    ∃ l, (Line.ofList items).decide Grammar.standard = .ok l ∧ l.toList.length = 8 ∧
      l.toList.IsChain Item.Apart ∧ OnlyMissing (l.toExpr Grammar.standard) := by
  intro scope items
  have accepted := Grammar.toGrammar_standard
  obtain ⟨lines, decided, grouped⟩ := operator_never_missing accepted
  have refused : (parse scope "2 (x) y! + $").map (fun _ => ()) = .error (.operandExpected "$") := by
    decide +kernel
  have of : ∀ i ∈ items, i.Of Grammar.standard := by
    intro i member
    rcases List.mem_append.1 member with operand | symbol
    · simp only [List.mem_cons, List.not_mem_nil, or_false] at operand
      rcases operand with rfl | rfl | rfl <;> exact .operand _
    · obtain ⟨symbol, _, known⟩ := List.mem_filterMap.1 symbol
      obtain ⟨roles, found, rfl⟩ := Option.map_eq_some_iff.1 known
      exact .symbol found
  have decides : ((Line.ofList items).decide Grammar.standard).toOption.any
      fun l => l.toList.length = 8 := by
    decide +kernel
  constructor
  · have refused := map_eq_error.1 refused
    exact ⟨refused, lines scope _ _ rfl refused⟩
  · obtain ⟨l, result, eight⟩ := exists_of_any decides
    have apart := decided items l none result
    exact ⟨l, result, of_decide_eq_true eight, apart,
      grouped l apart (of_decide accepted of result none)⟩

end Parse

end Abacus
