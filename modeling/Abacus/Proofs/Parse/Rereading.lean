import Abacus.Proofs.Expr.Pairs
import Abacus.Proofs.Expr.Regrouped
import Abacus.Proofs.Parse.Creation
import Abacus.Proofs.Parse.Reading

/-!
# Reading a composed line

In a grammar whose symbols have no white space, comma or parenthesis and are no numbers, the text
of a composed expression is read as the expression that the tiers group it into again.
-/

namespace Abacus

open Text

/-- Grammars whose symbols can be told from numbers and from the marks that structure a line. -/
def Grammar.Distinct (g : Grammar) : Prop :=
  ∀ symbol ∈ g.roles.keys, symbol ≠ "" ∧
    (∀ c ∈ symbol.toList, isBlank c = false ∧ c ≠ ',' ∧ c ≠ '(' ∧ c ≠ ')') ∧
    Number.ofText? symbol.toList = none

namespace Parse

open Fallible Parsing
open Grammar (standard)
open Abacus.Expr (Composed regrouped regroupedItems)

/-! ## Symbols of a grammar -/

section

variable {g : Grammar} {scope : Scope} {cuts : Cuts} {nested : NestedParser}

variable (distinct : g.Distinct) {o : Operator} {row : Nat} (operates : g.Operates row o)
include distinct operates

theorem nested_symbol : o.symbol.toList ≠ [] ∧
    Nested (fun c => isBlank c = false ∧ c ≠ ',') o.symbol.toList := by
  obtain ⟨roles, found, _⟩ := operates
  obtain ⟨filled, marks, _⟩ := distinct o.symbol (Table.mem_keys found)
  refine ⟨fun empty => filled (String.toList_injective empty), .ofChars fun c member => ?_⟩
  obtain ⟨blank, comma, opens, closes⟩ := marks c member
  exact ⟨⟨blank, comma⟩, opens, closes⟩

theorem operand?_symbol (grammar : scope.grammar = g) :
    operand? scope nested o.symbol.toList = pure none := by
  obtain ⟨roles, found, _⟩ := operates
  obtain ⟨filled, marks, number⟩ := distinct o.symbol (Table.mem_keys found)
  have isSymbol : scope.grammar.isSymbol (String.ofList o.symbol.toList) = true := by
    rw [grammar, String.ofList_toList, Grammar.isSymbol, found]
    rfl
  have noParens : betweenParens? o.symbol.toList = none := by
    cases text : o.symbol.toList with
    | nil => rfl
    | cons c rest => exact betweenParens?_of_head (marks c (by simp [text])).2.2.1 rest
  have behind : o.symbol.toList.dropWhile (· ≠ '(') = [] :=
    List.dropWhile_eq_nil_iff.2 fun c member => by simpa using (marks c member).2.2.1
  unfold operand?
  rw [number, noParens, isSymbol]
  dsimp only
  rw [Bool.not_true, Bool.and_false, if_neg Bool.false_ne_true]
  unfold call?
  dsimp only
  rw [behind]
  rfl

theorem tokenItems_symbol (grammar : scope.grammar = g) (made : Cuts.ofGrammar g = .ok cuts) :
    tokenItems scope cuts nested (o.symbol.toList, none) =
      pure [(Item.operator ⟨row, o⟩).undecided g] := by
  obtain ⟨roles, found, _⟩ := operates
  have config := (configs_of_ofGrammar made).2
  have protects : cuts.aroundSymbols.config.Protects := by
    rw [config]
    refine ⟨rfl, rfl, rfl, rfl, rfl, rfl, rfl, rfl, fun symbol member => ?_⟩
    have marks := (distinct symbol member).2.1
    exact ⟨fun opens => (marks _ opens).2.2.1 rfl, fun closes => (marks _ closes).2.2.2 rfl⟩
  have separator : o.symbol ∈ cuts.aroundSymbols.config.separators := by
    rw [config]
    exact Table.mem_keys found
  have longest : cuts.aroundSymbols.lexicon.longestSymbol? (o.symbol.toList ++ []) = some o.symbol := by
    rw [Tokenizer.longestSymbol?_eq_iff]
    refine ⟨(Tokenizer.mem_symbols protects).2 (.inl separator), (distinct _ (Table.mem_keys found)).1,
      ⟨[], rfl⟩, fun other _ behind starts => ?_⟩
    have := congrArg List.length starts
    simp only [List.length_append, List.length_nil] at this
    omega
  have tokens : cuts.aroundSymbols.tokens o.symbol.toList = [o.symbol.toList] := by
    have cut := Tokenizer.Cut.separator separator longest .nil
    rw [List.append_nil] at cut
    exact Tokenizer.tokens_of_cut protects cut
  have segment : segmentItems scope cuts nested o.symbol.toList = pure [.symbol o.symbol roles] := by
    unfold segmentItems
    rw [grammar, String.ofList_toList, found]
  unfold tokenItems
  dsimp only
  rw [tokens, List.mapM_cons, List.mapM_nil, segment, Item.undecided, found]
  rfl

end

/-! ## Lines -/

theorem decideRoles_chain {g : Grammar} {items : List Item} (chain : Chain g items) :
    decideRoles false (items.map (Item.undecided g)) = .ok (items.map fun i => (i, false)) := by
  induction chain with
  | operand _ => rfl
  | @cons e role items _ operates chain inductionHypothesis =>
    obtain ⟨roles, found, operator⟩ := operates
    have undecided : (Item.operator role).undecided g = .symbol role.member.symbol roles := by
      rw [Item.undecided, found]
      rfl
    have follows : (items.map (Item.undecided g)).head?.any Item.followsOperator = true := by
      cases chain <;> rfl
    have decides : decideItem true (items.map (Item.undecided g)).head?
        (.symbol role.member.symbol roles) = .ok (.operator role) := by
      simp only [decideItem, follows]
      cases after : roles.after <;> simp [decideRole, operator, after, Option.filter]
    simp only [List.map_cons, undecided]
    refine decideRoles_cons rfl ?_ (decideRoles_cons decides rfl inductionHypothesis)
    simp [Item.opensOperand, operator]

section

variable {p : Grammar.Plan} {g : Grammar} {leaf : Expr → Prop} {callable : Function → Nat → Prop}
  {t : Expr}

/-- What an item is read as when its names lead to some cells. -/
def Item.readAs (g : Grammar) (cellOf : String → Cell) : Item → Item
  | .operand x => .operand (regrouped g (x.relinked cellOf))
  | i => i

theorem plain_eq_intercalate (composed : Composed g leaf callable t) :
    t.plain = [' '].intercalate ((t.items g).map Item.written) := by
  induction composed with
  | literal _ | cell _ | call _ _ _ | parens _ _ => exact (List.intercalate_singleton ..).symm
  | @binary row o l r operates _ _ leftHypothesis rightHypothesis =>
    obtain ⟨i, is, left⟩ := List.exists_cons_of_ne_nil (l.items_ne_nil g)
    obtain ⟨j, js, right⟩ := List.exists_cons_of_ne_nil (r.items_ne_nil g)
    rw [Expr.plain, leftHypothesis, rightHypothesis, Expr.items_binary operates, left, right]
    simp only [List.map_cons, List.map_append, List.cons_append, Expr.intercalate_append,
      List.intercalate_cons_cons]
    simp [Item.written]

theorem regroupedItems_relinked (composed : Composed g leaf callable t) (cellOf : String → Cell) :
    regroupedItems g (t.relinked cellOf) = (t.items g).map (Item.readAs g cellOf) := by
  have single {x y : Expr} (operand : regroupedItems g x = [.operand y]) :
      regroupedItems g x = [.operand (regrouped g x)] := by
    have same : regrouped g x = y := by
      rw [regrouped, operand]
      exact Expr.grouped_operand g y
    rw [same, operand]
  induction composed with
  | literal _ | cell _ | call _ _ _ | parens _ _ => exact single rfl
  | binary operates _ _ leftHypothesis rightHypothesis =>
    rw [Expr.relinked, regroupedItems, operates.row?, leftHypothesis, rightHypothesis,
      Expr.items_binary operates, List.map_append, List.map_cons]
    rfl

variable {scope : Scope} {cuts : Cuts} {unknown : String → Cell}

/-- The operand that a word is read as before it is cut. -/
def Item.tried (g : Grammar) (cellOf : String → Cell) : Item → Option Expr
  | .operand x => some (regrouped g (x.relinked cellOf))
  | _ => none

/-- Whether the text of an operand is read as what it is grouped into, given enough depth for its
    parentheses. -/
structure ReadsBack (g : Grammar) (scope : Scope) (cuts : Cuts) (unknown : String → Cell)
    (x : Expr) : Prop where
  solid : Solid x.plain
  reads (depth : Nat) (base : Table String Cell) : x.plain.count '(' ≤ depth →
    Produces scope base (fun final => some (regrouped g (x.relinked (scope.cellOf unknown final))))
      (operand? scope (parseToDepth scope cuts depth false) x.plain)

theorem readAs_of_tried {f f' : String → Cell} {i : Item} (same : i.tried g f = i.tried g f') :
    i.readAs g f = i.readAs g f' := by
  cases i with
  | operand x => exact congrArg Item.operand (Option.some.inj same)
  | symbol _ _ | operator _ | before _ | after _ => rfl

theorem mapM_pure {α β γ : Type} {f : α → Parsing β} {text : γ → α} {h : γ → β} {cs : List γ}
    (each : ∀ c ∈ cs, f (text c) = pure (h c)) : (cs.map text).mapM f = pure (cs.map h) := by
  induction cs with
  | nil => rfl
  | cons c cs inductionHypothesis =>
    rw [List.forall_mem_cons] at each
    rw [List.map_cons, List.mapM_cons, each.1, inductionHypothesis each.2]
    simp

theorem regrouped_congr (composed : Composed g leaf callable t) {f f' : String → Cell}
    (same : ∀ i ∈ t.items g, i.tried g f = i.tried g f') :
    regrouped g (t.relinked f) = regrouped g (t.relinked f') := by
  rw [regrouped, regrouped, regroupedItems_relinked composed, regroupedItems_relinked composed]
  exact congrArg (Expr.grouped g) (List.map_congr_left fun i member => readAs_of_tried (same i member))

/-! ### Words -/

section

variable (distinct : g.Distinct) (composed : Composed g leaf callable t)

/-- Whether blanks stand between the items of a line and nowhere else in the open. -/
def Spread (g : Grammar) (t : Expr) : Prop :=
  ∀ i ∈ t.items g, i.written ≠ [] ∧ Nested (fun c => isBlank c = false ∧ c ≠ ',') i.written

include distinct composed in
theorem spread_of_solid (solid : ∀ x, .operand x ∈ t.items g → Solid x.plain) : Spread g t := by
  intro i member
  rcases composed.chain_items.mem i member with ⟨x, rfl⟩ | ⟨row, o, rfl, operates⟩
  · obtain ⟨filled, nested⟩ := solid x member
    exact ⟨filled, nested.weaken fun c word =>
      ⟨isBlank_of_isWordChar word, ne_comma_of_isWordChar word⟩⟩
  · exact nested_symbol distinct operates

include composed in
theorem clean_of_spread (spread : Spread g t) : Clean t.plain := by
  have plain := plain_eq_intercalate composed
  unfold Spread at spread
  obtain ⟨i, is, whole⟩ := List.exists_cons_of_ne_nil (t.items_ne_nil g)
  rw [whole] at plain spread
  rw [plain, List.map_cons]
  exact clean_intercalate (List.map_cons ▸ List.forall_mem_map.2 spread)

include composed in
theorem tokens_of_spread (made : Cuts.ofGrammar g = .ok cuts) (spread : Spread g t) :
    cuts.atBlanks.tokens t.plain = (t.items g).map Item.written := by
  rw [plain_eq_intercalate composed]
  refine tokens_of_words made (List.forall_mem_map.2 fun i member => ?_)
  obtain ⟨filled, nested⟩ := spread i member
  exact ⟨filled, nested.weaken fun _ both => both.1⟩

variable (grammar : scope.grammar = g)
include distinct composed grammar

theorem produces_tried (operands : ∀ x, .operand x ∈ t.items g → ReadsBack g scope cuts unknown x)
    {depth : Nat} (deep : t.plain.count '(' ≤ depth) (base : Table String Cell) {i : Item}
    (member : i ∈ t.items g) :
    Produces scope base (fun final => (i.written, i.tried g (scope.cellOf unknown final)))
      (do return (i.written, ← operand? scope (parseToDepth scope cuts depth false) i.written)) := by
  rcases composed.chain_items.mem i member with ⟨x, rfl⟩ | ⟨row, o, rfl, operates⟩
  · have inside : x.plain.count '(' ≤ t.plain.count '(' := by
      rw [plain_eq_intercalate composed]
      exact count_le_intercalate '(' (List.mem_map_of_mem (f := Item.written) member)
    exact ((operands x member).reads depth base (Nat.le_trans inside deep)).map _
  · have none : operand? scope (parseToDepth scope cuts depth false)
        (Item.operator ⟨row, o⟩).written = pure none := operand?_symbol distinct operates grammar
    rw [none]
    exact .map (.result fun _ _ => rfl) _

theorem tokenItems_written (made : Cuts.ofGrammar g = .ok cuts) (nested : NestedParser)
    (cellOf : String → Cell) {i : Item} (member : i ∈ t.items g) :
    tokenItems scope cuts nested (i.written, i.tried g cellOf) =
      pure [(i.readAs g cellOf).undecided g] := by
  rcases composed.chain_items.mem i member with ⟨x, rfl⟩ | ⟨row, o, rfl, operates⟩
  · rfl
  · exact tokenItems_symbol distinct operates grammar made

end

/-! ### Roles and tiers -/

/-- The items of a composed line are given the roles that they have in it and grouped again. -/
theorem decide_undecided (accepted : p.toGrammar = .ok g) (composed : Composed g leaf callable t)
    (cellOf : String → Cell) (leading : Option Expr) :
    ∃ l, (Line.ofList (((t.items g).map fun i => [(i.readAs g cellOf).undecided g]).flatten)).decide g =
        .ok l ∧
      (l.withLeading leading).toExpr g = .ok (regrouped g (t.relinked cellOf)) := by
  have chain := (composed.relinked cellOf).chain
  obtain ⟨groups, _, _⟩ := (composed.relinked cellOf).regroups accepted
  have items : ((t.items g).map fun i => [(i.readAs g cellOf).undecided g]).flatten =
      (regroupedItems g (t.relinked cellOf)).map (Item.undecided g) := by
    rw [regroupedItems_relinked composed, ← List.flatMap_def, ← List.map_eq_flatMap, List.map_map]
    rfl
  obtain ⟨l, decides, toExpr⟩ := toExpr_of_decideRoles g (decideRoles_chain chain)
    (fun role rest starts => by rw [starts] at chain; cases chain) leading
  rw [items]
  exact ⟨l, decides, toExpr.trans groups⟩

variable (distinct : g.Distinct) (grammar : scope.grammar = g) (made : Cuts.ofGrammar g = .ok cuts)
include distinct grammar made

theorem produces_line (accepted : p.toGrammar = .ok g) (composed : Composed g leaf callable t)
    (operands : ∀ x, .operand x ∈ t.items g → ReadsBack g scope cuts unknown x) :
    Clean t.plain ∧ ∀ depth wholeLine base, t.plain.count '(' ≤ depth →
      Produces scope base (fun final => some (regrouped g (t.relinked (scope.cellOf unknown final))))
        (parseToDepth scope cuts (depth + 1) wholeLine t.plain) := by
  have spread := spread_of_solid distinct composed fun x member => (operands x member).solid
  refine ⟨clean_of_spread composed spread, fun depth wholeLine base deep => ?_⟩
  rw [parseToDepth, parseWith, tokens_of_spread composed made spread]
  refine .bind (.mapM fun i member => produces_tried distinct composed grammar operands deep base member)
    fun between read _ same => ?_
  -- From here on nothing depends on the variables that are created later.
  have agree (final : Table String Cell) (within : between.Within final) :
      regrouped g (t.relinked (scope.cellOf unknown final)) =
        regrouped g (t.relinked (scope.cellOf unknown between)) := by
    have equal := (same final within).trans (same between (.refl _)).symm
    rw [List.map_inj_left] at equal
    exact regrouped_congr composed fun i member => (Prod.mk.inj (equal i member)).2
  cases same between (.refl _)
  split
  · rename_i impossible
    exact absurd (List.map_eq_nil_iff.1 impossible) (t.items_ne_nil g)
  · rename_i text e single
    obtain ⟨i, whole, tried⟩ := List.map_eq_singleton_iff.1 single
    cases i with
    | operand x =>
      cases Expr.eq_of_items_operand whole
      cases tried
      exact .result fun final within => congrArg some (agree final within)
    | symbol _ _ | operator _ | before _ | after _ => cases tried
  · obtain ⟨l, decides, toExpr⟩ := decide_undecided accepted composed (scope.cellOf unknown between)
      (scope.leadingOf wholeLine t.plain)
    rw [mapM_pure fun i member => tokenItems_written distinct composed grammar made _ _ member,
      pure_bind, grammar]
    have reads : Produces scope between (fun _ => l) (liftM _ : Parsing (Line Item)) :=
      .ofExcept decides fun _ _ => rfl
    refine reads.bind fun more line grows fixed => ?_
    cases fixed more (.refl _)
    exact .map (.ofExcept toExpr fun final within => agree final (grows.trans within)) some

end

/-! ## Operands of all depths -/

section

variable {p : Grammar.Plan} {scope : Scope} {cuts : Cuts} {unknown : String → Cell} {t : Expr}

/-- The leaves that a line can mention: whole numbers that have no sign and names that are no
    symbols. -/
def Scope.Mentions (scope : Scope) : Expr → Prop
  | .literal (some (.integer n)) => 0 ≤ n
  | .cell c => Lexeme.isName c.name.toList ∧ scope.grammar.isSymbol c.name = false
  | _ => False

theorem readsBack_integer {n : Int} (unsigned : 0 ≤ n) :
    ReadsBack scope.grammar scope cuts unknown (.literal (some (.integer n))) := by
  obtain ⟨k, rfl⟩ := Int.eq_ofNat_of_zero_le unsigned
  have text : (Expr.literal (some (.integer k))).plain = Decimal.digits k :=
    Number.toList_text_natCast k
  refine ⟨text ▸ solid_of_words (Decimal.digits_ne_nil k) isWordChar_of_digits, fun depth base _ => ?_⟩
  rw [text, operand?_number (Number.ofText?_digits k)]
  exact .result fun _ _ => congrArg some (Expr.grouped_operand _ _)

theorem readsBack_cell {c : Cell} (mentioned : scope.Mentions (.cell c)) :
    ReadsBack scope.grammar scope cuts unknown (.cell c) := by
  obtain ⟨isName, notSymbol⟩ := mentioned
  refine ⟨solid_of_isName isName, fun depth base _ => ?_⟩
  rw [Expr.plain, operand?_name isName notSymbol]
  exact ((produces_cell scope unknown base c.name).map _).congr fun _ =>
    congrArg some (Expr.grouped_operand _ _)

variable (distinct : scope.grammar.Distinct) (made : Cuts.ofGrammar scope.grammar = .ok cuts)
  (accepted : p.toGrammar = .ok scope.grammar)
include distinct made accepted

theorem readsBack_parens {e : Expr} (composed : Composed scope.grammar scope.Mentions (Calls scope) e)
    (operands : ∀ x, .operand x ∈ e.items scope.grammar → ReadsBack scope.grammar scope cuts unknown x) :
    ReadsBack scope.grammar scope cuts unknown (.parens e) := by
  obtain ⟨clean, line⟩ := produces_line distinct rfl made accepted composed operands
  refine ⟨solid_parens clean, fun depth base deep => ?_⟩
  obtain ⟨inner, rfl, within⟩ := exists_depth_parens deep
  rw [Expr.plain, operand?_parens clean.nested]
  exact ((line inner false base within).map fun result => some (.parens (result.getD .void))).congr
    fun _ => congrArg some (Expr.grouped_operand _ _)

theorem readsBack_call {f : Function} {es : List Expr} (known : Calls scope f es.length)
    (composed : ∀ e ∈ es, Composed scope.grammar scope.Mentions (Calls scope) e)
    (operands : ∀ e ∈ es, ∀ x, .operand x ∈ e.items scope.grammar →
      ReadsBack scope.grammar scope cuts unknown x) :
    ReadsBack scope.grammar scope cuts unknown (.call f es) := by
  have line (e : Expr) (member : e ∈ es) :=
    produces_line distinct rfl made accepted (composed e member) (operands e member)
  have clean (e : Expr) (member : e ∈ es) : Clean e.plain := (line e member).1
  refine ⟨solid_call known.1 clean, fun depth base deep => ?_⟩
  obtain ⟨inner, rfl, within⟩ := exists_depth_call deep
  have argument (e : Expr) (member : e ∈ es) : Produces scope base
      (fun final => regrouped scope.grammar (e.relinked (scope.cellOf unknown final)))
      (do return (← parseToDepth scope cuts (inner + 1) false e.plain).getD .void) :=
    ((line e member).2 inner false base (within e member)).map fun result => result.getD .void
  have arguments : Produces scope base
      (fun final => es.map fun e => regrouped scope.grammar (e.relinked (scope.cellOf unknown final)))
      ((es.map Expr.plain).mapM fun text => do
        return (← parseToDepth scope cuts (inner + 1) false text).getD .void) := .mapM argument
  rw [plain_call, operand?_call known.1 (by rw [List.length_map]; exact known.2)
    (List.forall_mem_map.2 clean)]
  refine (arguments.map fun results => some (Expr.call f results)).congr fun final => ?_
  rw [Expr.relinked, Expr.relinkedAll_eq_map]
  refine congrArg some ((Expr.grouped_operand _ _).trans ?_)
  rw [Expr.regroupedAll_eq_map, List.map_map]
  rfl

/-- The operands of a composed expression are read back, and so is the expression. -/
theorem readsBack_of_composed (composed : Composed scope.grammar scope.Mentions (Calls scope) t) :
    ∀ x, .operand x ∈ t.items scope.grammar → ReadsBack scope.grammar scope cuts unknown x := by
  induction composed with
  | @literal v mentioned =>
    intro x member
    cases List.mem_singleton.1 member
    rcases v with _ | ⟨n⟩ | _ | _
    · exact mentioned.elim
    · exact readsBack_integer mentioned
    · exact mentioned.elim
    · exact mentioned.elim
  | cell mentioned =>
    intro x member
    cases List.mem_singleton.1 member
    exact readsBack_cell mentioned
  | binary operates _ _ leftHypothesis rightHypothesis =>
    intro x member
    rw [Expr.items_binary operates, List.mem_append, List.mem_cons] at member
    rcases member with left | impossible | right
    · exact leftHypothesis x left
    · cases impossible
    · exact rightHypothesis x right
  | call known composed inductionHypothesis =>
    intro x member
    cases List.mem_singleton.1 member
    exact readsBack_call distinct made accepted known composed inductionHypothesis
  | parens composed inductionHypothesis =>
    intro x member
    cases List.mem_singleton.1 member
    exact readsBack_parens distinct made accepted composed inductionHypothesis

omit made in
theorem balanced_of_composed (composed : Composed scope.grammar scope.Mentions (Calls scope) t) :
    balanced t.plain := by
  obtain ⟨cuts, made⟩ := exists_cuts scope.grammar
  let unknown (name : String) : Cell := ⟨scope.fresh, name, .variable⟩
  have operands : ∀ x, .operand x ∈ t.items scope.grammar → ReadsBack scope.grammar scope cuts unknown x :=
    readsBack_of_composed distinct made accepted composed
  exact balanced_of_nested (produces_line distinct rfl made accepted composed operands).1.nested

omit made in
theorem parse_composed (composed : Composed scope.grammar scope.Mentions (Calls scope) t) {line : String}
    (text : line.toList = t.plain) : ∃ e created, parse scope line = .ok ⟨some e, created⟩ ∧
      ∀ unknown, e = regrouped scope.grammar (t.relinked (scope.cellOf unknown created)) := by
  obtain ⟨cuts, made⟩ := exists_cuts scope.grammar
  have reads (unknown : String → Cell) : ∃ created, parse scope line =
      .ok ⟨some (regrouped scope.grammar (t.relinked (scope.cellOf unknown created))), created⟩ := by
    obtain ⟨clean, reads⟩ := produces_line distinct rfl made accepted composed
      (readsBack_of_composed distinct made accepted composed)
    obtain ⟨e, created, ends, _, _, same⟩ :=
      reads _ true ∅ (Nat.le_refl _) ∅ (.empty scope) (.refl _)
    obtain rfl : some (regrouped scope.grammar (t.relinked (scope.cellOf unknown created))) = e :=
      same created (.refl _)
    refine ⟨created, ?_⟩
    unfold parse
    dsimp only
    rw [text, balanced_of_nested clean.nested, made]
    exact bind_eq_ok.2 ⟨cuts, rfl, bind_eq_ok.2 ⟨_, ends, rfl⟩⟩
  obtain ⟨created, ends⟩ := reads fun name => ⟨scope.fresh, name, .variable⟩
  refine ⟨_, created, ends, fun unknown => ?_⟩
  obtain ⟨created', ends'⟩ := reads unknown
  obtain ⟨same, rfl⟩ := Parsed.mk.inj (Except.ok.inj (ends.symm.trans ends'))
  exact Option.some.inj same

end

/-! ## Main result -/

theorem literalNeedsParens_of_mentions {scope : Scope} (v : Value) (place : Expr.Place)
    (good : scope.Mentions (.literal v)) : Expr.literalNeedsParens v place = false := by
  rcases v with _ | ⟨n⟩ | _ | _
  · exact good.elim
  · have unsigned : 0 ≤ n := good
    have atomic : (Number.integer n).isAtomic = true := by
      simp [Number.isAtomic, Number.isNegative, Number.compare?, Number.terms?,
        compare_lt_iff_lt, unsigned]
    cases place <;> simp [Expr.literalNeedsParens, atomic]
  · exact good.elim
  · exact good.elim

theorem not_mem_of_word {text : List Char} (word : ∀ c ∈ text, isWordChar c) : '(' ∉ text :=
  fun member => absurd (word _ member) (by decide)

theorem unbracketed_of_composed {g : Grammar} {scope : Scope} {t : Expr} (distinct : g.Distinct)
    (composed : Composed g scope.Mentions (Calls scope) t) : t.Unbracketed := by
  induction composed with
  | @literal v mentioned =>
    refine List.forall_mem_singleton.2 ?_
    rcases v with _ | ⟨n⟩ | _ | _
    · exact mentioned.elim
    · obtain ⟨k, rfl⟩ := Int.eq_ofNat_of_zero_le mentioned
      change '(' ∉ (Number.integer k).text.toList
      rw [Number.toList_text_natCast]
      exact not_mem_of_word isWordChar_of_digits
    · exact mentioned.elim
    · exact mentioned.elim
  | cell mentioned =>
    exact List.forall_mem_singleton.2 (not_mem_of_word (Lexeme.isWordChar_of_isName mentioned.1))
  | @binary row o l r operates _ _ leftHypothesis rightHypothesis =>
    obtain ⟨roles, found, _⟩ := operates
    obtain ⟨_, marks, _⟩ := distinct o.symbol (Table.mem_keys found)
    exact List.forall_mem_cons.2 ⟨fun member => (marks _ member).2.2.1 rfl,
      List.forall_mem_append.2 ⟨leftHypothesis, rightHypothesis⟩⟩
  | call known _ inductionHypothesis =>
    have name := not_mem_of_word (Lexeme.isWordChar_of_isName known.1)
    refine List.forall_mem_cons.2 ⟨name, fun x member => ?_⟩
    obtain ⟨e, argument, inside⟩ := Expr.mem_subexpressionsAll.1 member
    exact inductionHypothesis e argument x inside
  | parens _ inductionHypothesis =>
    exact List.forall_mem_cons.2 ⟨List.not_mem_nil, inductionHypothesis⟩

theorem distinct_standard : standard.Distinct := by
  intro symbol registered
  have filled := Grammar.filled_of_registered symbol registered
  have marks := Grammar.isMark_of_registered symbol registered
  refine ⟨fun empty => filled (by rw [empty]; rfl), fun c member => ?_, ?_⟩
  · obtain ⟨_, opens, closes, comma, blank⟩ := isMark_iff.1 (marks c member)
    exact ⟨blank, comma, opens, closes⟩
  · obtain ⟨c, rest, text, mark⟩ := Grammar.exists_mark registered
    exact Number.ofText?_of_mark mark (.inl (by rw [text]; rfl))

/-- Precedence and associativity in any grammar.  In an accepted grammar with distinct symbols every
    expression that is composed with its operators of whole numbers, names, calls of known
    functions and parentheses is read back from its rendered text but for parentheses, and
    whenever one of the pairs of parentheses that were added is left out the text is not read as
    this expression any more.  All pairs but those that were written and those of calls are pairs
    that were added. -/
theorem rendered_reads_back_minimally {p : Grammar.Plan} {g : Grammar} (accepted : p.toGrammar = .ok g)
    (distinct : g.Distinct) {scope : Scope} (grammar : scope.grammar = g) {t : Expr}
    (composed : Composed g scope.Mentions (Calls scope) t) :
    (∃ e created, parse scope (t.render g) = .ok ⟨some e, created⟩ ∧
      ∀ unknown, e.withoutParens = t.withoutParens.relinked (scope.cellOf unknown created)) ∧
    (∀ text ∈ t.lessParens g, Expr.OmitsPair (t.render g).toList text.toList ∧
      ∀ parsed, parse scope text = .ok parsed → ∀ e, parsed.expr = some e →
        ∀ cellOf, e.withoutParens ≠ t.withoutParens.relinked cellOf) ∧
    (t.render g).toList.count '(' =
      (t.lessParens g).length + t.subexpressions.countP Expr.isEnclosing := by
  subst grammar
  refine ⟨?_, ?_, Expr.count_renderAt _ t .alone (unbracketed_of_composed distinct composed)⟩
  · obtain ⟨y, writes, fits⟩ :=
      composed.exists_fits accepted literalNeedsParens_of_mentions .alone
    obtain ⟨e, created, ends, same⟩ := parse_composed distinct accepted writes.composed writes.text
    refine ⟨e, created, ends, fun unknown => ?_⟩
    have linked := writes.composed.relinked (scope.cellOf unknown created)
    rw [same unknown, linked.regrouped_of_fits accepted ((writes.composed.fits_relinked _).2 fits),
      Expr.withoutParens_relinked, writes.same]
  · intro text member
    refine ⟨composed.omitsPair accepted literalNeedsParens_of_mentions
      (fun _ => balanced_of_composed distinct accepted) .alone text member, ?_⟩
    intro parsed ends e found cellOf equal
    obtain ⟨y, writes, misfit⟩ :=
      composed.exists_not_fits accepted literalNeedsParens_of_mentions .alone text member
    obtain ⟨e', created, ends', same⟩ := parse_composed distinct accepted writes.composed writes.text
    cases ends.symm.trans ends'
    cases found
    let unknown (name : String) : Cell := ⟨scope.fresh, name, .variable⟩
    have linked := writes.composed.relinked (scope.cellOf unknown created)
    have strips : (y.relinked (scope.cellOf unknown created)).withoutParens =
        t.withoutParens.relinked (scope.cellOf unknown created) := by
      rw [Expr.withoutParens_relinked, writes.same]
    -- Read back as an expression of the same outline, the text would have all parentheses.
    have outline : e.outline = (y.relinked (scope.cellOf unknown created)).outline :=
      (Expr.outline_eq_of_withoutParens equal).trans (Expr.outline_eq_of_withoutParens strips).symm
    rw [same unknown] at outline
    exact misfit ((writes.composed.fits_relinked _).1 (linked.fits_of_outline accepted outline))

/-- In the standard grammar `(1 + 2) * x` is read back as the product of a sum, and `1 + 2 * x` is
    not. -/
theorem product_of_sum_reads_back :
    let t : Expr := .binary ⟨"*", .combine .mul⟩
      (.binary ⟨"+", .combine .add⟩ (.literal (some (.integer 1))) (.literal (some (.integer 2))))
      (.cell ⟨4, "x", .variable⟩)
    let scope : Scope := ⟨standard, ∅, ∅, ∅, none, 5⟩
    t.render standard = "(1 + 2) * x" ∧ "1 + 2 * x" ∈ t.lessParens standard ∧
    (∃ e created, parse scope "(1 + 2) * x" = .ok ⟨some e, created⟩ ∧
      ∀ unknown, e.withoutParens = t.withoutParens.relinked (scope.cellOf unknown created)) ∧
    ∀ parsed, parse scope "1 + 2 * x" = .ok parsed → ∀ e, parsed.expr = some e →
      ∀ cellOf, e.withoutParens ≠ t.withoutParens.relinked cellOf := by
  intro t scope
  have rendered : t.render standard = "(1 + 2) * x" := by decide +kernel
  have less : "1 + 2 * x" ∈ t.lessParens standard := by decide +kernel
  have number (n : Nat) : Composed standard scope.Mentions (Calls scope)
      (.literal (some (.integer n))) := .literal (Int.natCast_nonneg n)
  have plus : standard.Operates 6 ⟨"+", .combine .add⟩ := ⟨_, rfl, rfl⟩
  have times : standard.Operates 7 ⟨"*", .combine .mul⟩ := ⟨_, rfl, rfl⟩
  have composed : Composed standard scope.Mentions (Calls scope) t :=
    .binary times (.binary plus (number 1) (number 2)) (.cell ⟨by decide, by decide +kernel⟩)
  obtain ⟨back, minimal, _⟩ :=
    rendered_reads_back_minimally Grammar.toGrammar_standard distinct_standard rfl composed
  rw [rendered] at back
  exact ⟨rendered, less, back, (minimal _ less).2⟩

end Parse

end Abacus
