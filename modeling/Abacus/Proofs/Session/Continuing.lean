import Abacus.Proofs.Parse.Commitment
import Abacus.Proofs.Parse.Cutting
import Abacus.Proofs.Parse.Operand
import Abacus.Proofs.Parse.Respacing
import Abacus.Proofs.Parse.Spelling
import Abacus.Proofs.Session.Orderly
import Abacus.Proofs.Tokens.Leading
import Mathlib.Data.Finset.Max
import Mathlib.Data.List.Infix

/-!
# Continuing from the latest value

A line that starts with an operator continues from the latest value: it parses as if `ans` were
written in front of it.  For every other line, and inside of parentheses, it makes no difference
whether there is something to continue from.
-/

namespace Abacus

namespace Parse

open Fallible Text
open Grammar (standard)

/-! ## Lines that start with an operator -/

/-- Whether a text starts with an operator that is no modifier before an operand as well; of all
    symbols that it starts with, the longest one counts. -/
def StartsWithOperator (g : Grammar) (text : List Char) : Prop :=
  ∃ symbol roles, g.roles? symbol = some roles ∧ symbol.toList <+: text ∧
    (∀ other ∈ g.roles.keys, other.toList <+: text →
      other.toList.length ≤ symbol.toList.length) ∧
    roles.operator.isSome ∧ roles.before = none

theorem after_of_operator_standard {symbol : String} {roles : Roles}
    (known : standard.roles? symbol = some roles) (operator : roles.operator.isSome) :
    roles.after = none := by
  have all : standard.roles.entries.all fun entry =>
      entry.2.operator.isNone || entry.2.after.isNone := by decide +kernel
  simpa [Option.isSome_iff_ne_none.1 operator] using
    List.all_eq_true.1 all _ (Table.mem_entries known)

theorem operator_of_longer_standard {symbol longer : String} {roles roles' : Roles}
    (known : standard.roles? symbol = some roles) (known' : standard.roles? longer = some roles')
    (starts : symbol.toList <+: longer.toList) (operator : roles.operator.isSome)
    (before : roles.before = none) : roles'.operator.isSome ∧ roles'.before = none := by
  -- The texts of symbols are compared last, because it takes longest.
  have all : standard.roles.entries.all fun entry => standard.roles.entries.all fun entry' =>
      (entry'.2.operator.isSome && entry'.2.before.isNone) || !entry.2.operator.isSome ||
        entry.2.before.isSome || !entry.1.toList.isPrefixOf entry'.1.toList := by
    decide +kernel
  have both := List.all_eq_true.1 (List.all_eq_true.1 all _ (Table.mem_entries known)) _
    (Table.mem_entries known')
  simpa [List.isPrefixOf_iff_prefix.2 starts, operator, before] using both

theorem startsWithOperator_of_starts (symbol : String) {roles : Roles} {text : List Char}
    (known : standard.roles? symbol = some roles) (starts : symbol.toList <+: text)
    (operator : roles.operator.isSome) (before : roles.before = none) :
    StartsWithOperator standard text := by
  let candidates := standard.roles.keys.toFinset.filter fun other => other.toList <+: text
  obtain ⟨longest, member, most⟩ := candidates.exists_max_image (fun other => other.toList.length)
    ⟨symbol, Finset.mem_filter.2 ⟨List.mem_toFinset.2 (Table.mem_keys known), starts⟩⟩
  obtain ⟨registered, starts'⟩ := Finset.mem_filter.1 member
  obtain ⟨roles', known'⟩ := Table.exists_of_mem_keys (List.mem_toFinset.1 registered)
  have shorter : symbol.toList.length ≤ longest.toList.length :=
    most symbol (Finset.mem_filter.2 ⟨List.mem_toFinset.2 (Table.mem_keys known), starts⟩)
  refine ⟨longest, roles', known', starts', fun other registered starts => ?_, ?_⟩
  · exact most other (Finset.mem_filter.2 ⟨List.mem_toFinset.2 registered, starts⟩)
  · exact operator_of_longer_standard known known'
      (List.prefix_of_prefix_length_le starts starts' shorter) operator before

/-! ## Deciding a continued line -/

/-- An operator that is no other kind of symbol stays one behind an operand, so an operand in front
    of a line does what continuing from it does. -/
theorem continued_eq_written (g : Grammar) {symbol : String} {roles : Roles}
    (operator : roles.operator.isSome) (before : roles.before = none) (after : roles.after = none)
    (e : Expr) (rest : List Item) :
    ((Line.ofList (.symbol symbol roles :: rest)).decide g >>= fun l =>
        (l.withLeading (some e)).toExpr g) =
      ((Line.ofList (.operand e :: .symbol symbol roles :: rest)).decide g >>= fun l =>
        (l.withLeading none).toExpr g) := by
  obtain ⟨operator', before', after'⟩ := roles
  obtain ⟨role, rfl⟩ := Option.isSome_iff_exists.1 operator
  cases before
  cases after
  let found := Item.symbol symbol ⟨some role, none, none⟩
  have decides (afterOperand : Bool) :
      decideItem afterOperand rest.head? found = .ok (.operator role) := by
    cases afterOperand <;> rfl
  have alone (afterOperand : Bool) : decideRoles afterOperand (found :: rest) =
      decideRoles false rest >>= fun more => .ok ((.operator role, false) :: more) := by
    rw [decideRoles, decides]
    rfl
  have behind : decideRoles false (.operand e :: found :: rest) =
      decideRoles true (found :: rest) >>= fun more => .ok ((.operand e, false) :: more) := rfl
  rw [toExpr_decide, toExpr_decide, alone, behind, alone]
  cases decideRoles false rest with
  | error cause => rfl
  | ok more => rfl

theorem withLeading_of_ne {g : Grammar} {items : List Item} (found : ∀ i ∈ items, i.Found g)
    {l : Line Item} (ends : (Line.ofList items).decide g = .ok l) {e : Expr}
    (starts : ∀ symbol roles rest, items = .symbol symbol roles :: rest →
      ¬ (roles.operator.isSome ∧ roles.before = none)) :
    (l.withLeading (some e)).toExpr g = (l.withLeading none).toExpr g := by
  obtain ⟨decided, decides, represents⟩ := Line.represents_decide ends
  rw [Line.toExpr, Line.toExpr, toList_withLeading represents, toList_withLeading represents]
  suffices continued (some e) (Line.spliced (.operator g.default) decided) =
      Line.spliced (.operator g.default) decided by
    rw [this]
    rfl
  cases items with
  | nil =>
    cases decides
    rfl
  | cons item rest =>
    obtain ⟨first, splices, more, decidesFirst, _, _, rfl⟩ := decideRoles_cons_eq_ok decides
    rw [spliced_cons]
    cases item with
    | operand x =>
      cases decidesFirst
      rfl
    | symbol symbol roles =>
      have other := starts symbol roles rest rfl
      obtain ⟨operator, before, after⟩ := roles
      cases before with
      | some role =>
        cases decidesFirst
        rfl
      | none =>
        cases operator with
        | some role => exact absurd ⟨rfl, rfl⟩ other
        | none =>
          cases after with
          | some role =>
            cases decidesFirst
            rfl
          | none => cases decidesFirst
    | operator _ | before _ | after _ => cases found _ List.mem_cons_self

/-! ## Texts inside -/

/-- What a line continues from makes no difference inside of it. -/
theorem parseToDepth_leading (scope : Scope) (leading : Option Cell) (cuts : Cuts) (depth : Nat) :
    parseToDepth { scope with leading } cuts depth false = parseToDepth scope cuts depth false := by
  induction depth with
  | zero => rfl
  | succ depth inductionHypothesis =>
    funext text
    change parseWith _ cuts (parseToDepth { scope with leading } cuts depth false) false text =
      parseWith _ cuts (parseToDepth scope cuts depth false) false text
    rw [inductionHypothesis]
    rfl

/-! ## Lines that are not continued -/

theorem leadingOf_none (scope : Scope) (wholeLine : Bool) (text : List Char) :
    Scope.leadingOf { scope with leading := none } wholeLine text = none := by
  unfold Scope.leadingOf
  split <;> rfl

theorem filled_of_leadingOf {scope : Scope} {wholeLine : Bool} {text : List Char} {e : Expr}
    (leads : scope.leadingOf wholeLine text = some e) : text.head?.any isBlank = false := by
  unfold Scope.leadingOf at leads
  split at leads
  · rename_i filled
    rw [Bool.and_eq_true, Bool.not_eq_true'] at filled
    exact filled.2
  · cases leads

theorem SpellsItems.first_symbol {scope : Scope} {final : Table String Cell} {text : List Char}
    {symbol : String} {roles : Roles} {rest : List Item} (filled : text.head?.any isBlank = false)
    (spells : SpellsItems scope final text (.symbol symbol roles :: rest)) :
    scope.grammar.roles? symbol = some roles ∧ symbol.toList <+: text := by
  generalize whole : Item.symbol symbol roles :: rest = items at spells
  cases spells with
  | blank _ | operand _ _ _ => cases whole
  | @symbol space name behind _ _ blank known _ =>
    cases whole
    rw [String.toList_ofList]
    refine ⟨known, ?_⟩
    cases space with
    | nil => exact List.prefix_append _ _
    | cons c space =>
      rw [allBlank, List.all_cons, Bool.and_eq_true] at blank
      have filled : isBlank c = false := filled
      rw [filled] at blank
      cases blank.1

section

variable {scope : Scope} {cuts : Cuts} (made : Cuts.ofGrammar scope.grammar = .ok cuts)
  {nested : NestedParser} {depth : Nat}
  (inside : ∀ text, text.count '(' < depth →
    Parsing.Gathers scope (fun final e => Spells scope final false text e) (nested text))

include made inside

theorem parseWith_of_not_startsWithOperator (grammar : scope.grammar = standard) {text : List Char}
    (shallow : text.count '(' ≤ depth) (other : ¬ StartsWithOperator standard text) :
    (parseWith scope cuts nested true text).run ∅ =
      (parseWith { scope with leading := none } cuts nested true text).run ∅ := by
  rw [parseWith_eq, parseWith_eq, leadingOf_none]
  refine run_bind_congr fun entries between tried => ?_
  -- The items of the line spell its text, so an operator at their front would be at its front.
  have same : (readEntries scope cuts nested (scope.leadingOf true text) entries).run between =
      (readEntries { scope with leading := none } cuts nested none entries).run between := by
    cases leading : scope.leadingOf true text with
    | none => rfl
    | some e =>
      obtain ⟨creates, _, tried⟩ :=
        entries_spell inside made shallow ∅ entries between (.empty scope) tried
      have tokens := (tried between (.refl _)).1
      refine run_bind_congr fun items final read => run_bind_congr fun l final' ends => ?_
      obtain ⟨_, grows, spells⟩ :=
        entryItems_spell inside made shallow tokens between items final creates read
      have spells := spells final (.refl _) (tried final grows).2
      have decides := (run_liftM_eq_ok.1 ends).1
      have unchanged : (l.withLeading (some e)).toExpr scope.grammar =
          (l.withLeading none).toExpr scope.grammar := by
        refine withLeading_of_ne spells.found decides fun symbol roles rest starts => ?_
        rintro ⟨operator, before⟩
        rw [starts] at spells
        obtain ⟨known, first⟩ := SpellsItems.first_symbol (filled_of_leadingOf leading) spells
        rw [grammar] at known
        exact other (startsWithOperator_of_starts symbol known first operator before)
      rw [unchanged]
  match entries, same with
  | [], _ => rfl
  | [(_, some e)], _ => rfl
  | [(_, none)], same | (_, some _) :: _ :: _, same | (_, none) :: _ :: _, same => exact same

end

/-! ## Lines that are continued -/

theorem longestSymbol?_of_longest {cuts : Cuts} (made : Cuts.ofGrammar standard = .ok cuts)
    {symbol : String} (registered : symbol ∈ standard.roles.keys) {more behind : List Char}
    (front : more <+: behind)
    (longest : ∀ other ∈ standard.roles.keys, other.toList <+: symbol.toList ++ behind →
      other.toList.length ≤ symbol.toList.length) :
    cuts.aroundSymbols.lexicon.longestSymbol? (symbol.toList ++ more) = some symbol := by
  have filled := Grammar.filled_of_registered symbol registered
  have config := (config_of_ofGrammar made).2
  have protects : cuts.aroundSymbols.config.Protects := config ▸ protects_symbolConfig
  have separators : cuts.aroundSymbols.config.separators = standard.roles.keys := by
    rw [config]
    rfl
  rw [Tokenizer.longestSymbol?_eq_iff]
  refine ⟨(Tokenizer.mem_symbols protects).2 (.inl (separators ▸ registered)), ?_,
    ⟨more, rfl⟩, fun other member rest starts => ?_⟩
  · rintro rfl
    exact filled rfl
  · rcases (Tokenizer.mem_symbols protects).1 member with separator | rfl | rfl
    · have within : symbol.toList ++ more <+: symbol.toList ++ behind :=
        (List.prefix_append_right_inj _).2 front
      exact longest other (separators ▸ separator) (List.IsPrefix.trans ⟨rest, starts.symm⟩ within)
    · exact List.length_pos_iff.2 filled
    · exact List.length_pos_iff.2 filled

section

variable {scope : Scope} (grammar : scope.grammar = standard) {cuts : Cuts}
  (made : Cuts.ofGrammar standard = .ok cuts) {nested : NestedParser} {symbol : String}
  {roles : Roles} (registered : standard.roles? symbol = some roles)

include grammar made registered

theorem tokenItems_front {more behind : List Char} (front : more <+: behind)
    (longest : ∀ other ∈ standard.roles.keys, other.toList <+: symbol.toList ++ behind →
      other.toList.length ≤ symbol.toList.length) :
    tokenItems scope cuts nested (symbol.toList ++ more, none) = (do
      let rest ← (cuts.aroundSymbols.tokens more).mapM (segmentItems scope cuts nested)
      return .symbol symbol roles :: rest.flatten) := by
  have config := (config_of_ofGrammar made).2
  have member : symbol ∈ cuts.aroundSymbols.config.separators := by
    rw [config]
    exact Table.mem_keys registered
  have segments := Tokenizer.tokens_separator (config ▸ protects_symbolConfig) member
    (longestSymbol?_of_longest made (Table.mem_keys registered) front longest)
  have segment : segmentItems scope cuts nested symbol.toList = pure [.symbol symbol roles] := by
    unfold segmentItems
    rw [String.ofList_toList, grammar, registered]
  unfold tokenItems
  dsimp only
  rw [segments, List.mapM_cons, segment]
  simp only [pure_bind, bind_assoc]
  rfl

omit grammar made in
/-- An operand in front of the entries of a line is what the line continues from. -/
theorem readEntries_continued (operator : roles.operator.isSome) (before : roles.before = none)
    {token : List Char} {rest : Parsing (List (List Item))}
    (items : tokenItems scope cuts nested (token, none) =
      (do return .symbol symbol roles :: (← rest).flatten))
    (e : Expr) (text : List Char) (entries : List (List Char × Option Expr)) :
    readEntries scope cuts nested (some e) ((token, none) :: entries) =
      readEntries scope cuts nested none ((text, some e) :: (token, none) :: entries) := by
  have operand : tokenItems scope cuts nested (text, some e) = pure [.operand e] := rfl
  have after := after_of_operator_standard registered operator
  unfold readEntries readItems
  simp only [List.mapM_cons, items, operand, pure_bind, bind_assoc]
  refine bind_congr fun first => bind_congr fun others => ?_
  rw [liftM_bind_liftM, liftM_bind_liftM, List.flatten_cons, List.flatten_cons, List.flatten_cons,
    List.singleton_append, List.cons_append,
    continued_eq_written scope.grammar operator before after]

omit registered in
theorem parseWith_of_startsWithOperator {name : String} {c : Cell}
    (named : Lexeme.isName name.toList) (leads : scope.leading = some c)
    (known : ∀ created, scope.lookup created name = some c) {text : List Char}
    (starts : StartsWithOperator standard text) :
    parseWith scope cuts nested true text =
      parseWith { scope with leading := none } cuts nested true (name.toList ++ ' ' :: text) := by
  obtain ⟨symbol, roles, registered, ⟨behind, rfl⟩, longest, operator, before⟩ := starts
  obtain ⟨x, tail, whole⟩ := List.exists_cons_of_ne_nil
    (Grammar.filled_of_registered symbol (Table.mem_keys registered))
  have marks := Grammar.isMark_of_registered symbol (Table.mem_keys registered)
  have words (x : Char) (member : x ∈ symbol.toList) : isBlank x = false ∧ x ≠ '(' ∧ x ≠ ')' := by
    obtain ⟨_, opens, closes, _, blank⟩ := isMark_iff.1 (marks x member)
    exact ⟨blank, opens, closes⟩
  have config := (config_of_ofGrammar made).1
  have protects : cuts.atBlanks.config.Protects := config ▸ protects_blankConfig
  have breaks : cuts.atBlanks.config.breaksOnBlank = true := by rw [config]; rfl
  have separators : cuts.atBlanks.config.separators = [] := by rw [config]; rfl
  have solid := solid_of_isName named
  obtain ⟨more, others, tokens, front⟩ :=
    Tokenizer.exists_first_token protects breaks separators (by simp [whole]) words behind
  have tokens' := Tokenizer.tokens_word protects breaks separators solid.1
    (solid.2.weaken fun _ => isBlank_of_isWordChar) (x := ' ') rfl (symbol.toList ++ behind)
  have noOperand : operand? scope nested (symbol.toList ++ more) = pure none :=
    operand?_of_symbol (Table.mem_keys registered) more
  have operand : operand? scope nested name.toList = pure (some (.cell c)) := by
    rw [operand?_name named (grammar ▸ isSymbol_of_isName named), cell_of_known known]
    rfl
  have leadingOf : scope.leadingOf true (symbol.toList ++ behind) = some (.cell c) := by
    have blank : isBlank x = false := (words x (by simp [whole])).1
    simp [Scope.leadingOf, whole, blank, leads]
  -- The written line has one more token, and its entry is the operand the other continues from.
  rw [parseWith_eq, parseWith_eq, tokens', tokens, leadingOf, leadingOf_none]
  change (((symbol.toList ++ more) :: others).mapM
      fun token => do return (token, ← operand? scope nested token)) >>= _ =
    ((name.toList :: (symbol.toList ++ more) :: others).mapM
      fun token => do return (token, ← operand? scope nested token)) >>= _
  simp only [List.mapM_cons, noOperand, operand, pure_bind, bind_assoc]
  refine bind_congr fun entries => ?_
  rw [readEntries_continued registered operator before
    (tokenItems_front grammar made registered front longest) (.cell c) name.toList entries]
  rfl

end

/-! ## Whole lines -/

theorem parse_of_not_startsWithOperator {scope : Scope} (grammar : scope.grammar = standard)
    {line : String} (other : ¬ StartsWithOperator standard line.toList) :
    parse scope line = parse { scope with leading := none } line := by
  obtain ⟨cuts, made⟩ := exists_cuts scope.grammar
  have accepted : Grammar.Plan.standard.toGrammar = .ok scope.grammar :=
    grammar ▸ Grammar.toGrammar_standard
  have same : (parseToDepth scope cuts (line.toList.count '(' + 1) true line.toList).run ∅ =
      (parseToDepth { scope with leading := none } cuts (line.toList.count '(' + 1) true
        line.toList).run ∅ := by
    change _ = (parseWith _ cuts (parseToDepth { scope with leading := none } cuts _ false) true
      line.toList).run ∅
    rw [parseToDepth_leading]
    exact parseWith_of_not_startsWithOperator made
      (fun text shallow => parseToDepth_spells accepted made _ false shallow) grammar
      (Nat.le_refl _) other
  have alone := parse_eq (show Cuts.ofGrammar { scope with leading := none }.grammar = _ from made)
  rw [parse_eq made, alone, same]

theorem parse_of_startsWithOperator {scope : Scope} (grammar : scope.grammar = standard)
    (name : String) {c : Cell} (named : Lexeme.isName name.toList) (leads : scope.leading = some c)
    (known : ∀ created, scope.lookup created name = some c) {line : String}
    (starts : StartsWithOperator standard line.toList) :
    (parse scope line).mapError ParseError.kind =
      (parse { scope with leading := none } (name ++ " " ++ line)).mapError ParseError.kind := by
  obtain ⟨cuts, made⟩ := exists_cuts scope.grammar
  have text : (name ++ " " ++ line).toList = name.toList ++ ' ' :: line.toList := by
    simp
  have noParens : '(' ∉ name.toList := fun member =>
    Bool.noConfusion (Lexeme.isWordChar_of_isName named '(' member)
  have depth : (name.toList ++ ' ' :: line.toList).count '(' = line.toList.count '(' := by
    rw [List.count_append, List.count_eq_zero.2 noParens, Nat.zero_add]
    exact List.count_cons_of_ne (by decide)
  have pairs : balanced (name.toList ++ ' ' :: line.toList) = balanced line.toList :=
    closes_append (solid_of_isName named).2 0 _
  have same : parseToDepth scope cuts (line.toList.count '(' + 1) true line.toList =
      parseToDepth { scope with leading := none } cuts (line.toList.count '(' + 1) true
        (name.toList ++ ' ' :: line.toList) := by
    change _ = parseWith _ cuts (parseToDepth { scope with leading := none } cuts _ false) true _
    rw [parseToDepth_leading]
    exact parseWith_of_startsWithOperator grammar (grammar ▸ made) named leads known starts
  have alone := parse_eq (show Cuts.ofGrammar { scope with leading := none }.grammar = _ from made)
  rw [parse_eq made, alone, text, depth, pairs, same]
  cases balanced line.toList <;> rfl

end Parse

namespace Session

open Parse
open Grammar (standard)

/-! ## Main result -/

/-- In a session of the standard grammar, a line that starts with an operator parses, with `ans` to
    continue from, as it does without it when `ans` is written in front.  For every other line, and
    in every text inside of a line, it makes no difference whether there is `ans` to continue
    from. -/
theorem continuing_writes_ans {s : Session} {v : Value} (history : History standard s v)
    (line : String) :
    let continued : Scope := { s.scope with leading := some ansCell }
    let alone : Scope := { s.scope with leading := none }
    (StartsWithOperator standard line.toList →
      (∃ parsed, Parse.parse continued line = .ok parsed ∧
        Parse.parse alone ("ans " ++ line) = .ok parsed) ∨
      ∃ cause cause', Parse.parse continued line = .error cause ∧
        Parse.parse alone ("ans " ++ line) = .error cause' ∧ cause.kind = cause'.kind) ∧
    (¬ StartsWithOperator standard line.toList →
      Parse.parse continued line = Parse.parse alone line) ∧
    ∀ cuts depth, parseToDepth continued cuts depth false =
      parseToDepth alone cuts depth false := by
  intro continued alone
  have orderly := history.orderly
  refine ⟨fun starts => Fallible.mapError_eq_iff.1 ?_, fun other => ?_, fun cuts depth => ?_⟩
  · refine parse_of_startsWithOperator orderly.grammar "ans" rfl rfl (fun created => ?_) starts
    rw [Scope.lookup]
    change (none : Option Cell).or ((s.names.get? "ans").or _) = _
    rw [orderly.ans]
    rfl
  · exact parse_of_not_startsWithOperator orderly.grammar other
  · exact (parseToDepth_leading s.scope (some ansCell) cuts depth).trans
      (parseToDepth_leading s.scope none cuts depth).symm

/-- At the start of a session `*2 + x` is read as `ans *2 + x`, and `x *2` as it stands. -/
theorem product_continues_from_ans :
    let continued : Scope := { (Session.start standard).scope with leading := some ansCell }
    let alone : Scope := { (Session.start standard).scope with leading := none }
    (∃ parsed, Parse.parse continued "*2 + x" = .ok parsed ∧
      Parse.parse alone ("ans " ++ "*2 + x") = .ok parsed) ∧
    Parse.parse continued "x *2" = Parse.parse alone "x *2" := by
  intro continued alone
  have history : History standard (Session.start standard) none := .start {}
  have starts : StartsWithOperator standard "*2 + x".toList :=
    startsWithOperator_of_starts "*" rfl (by decide) rfl rfl
  have reads : (Parse.parse continued "*2 + x").toOption.isSome := by decide +kernel
  constructor
  · refine ((continuing_writes_ans history "*2 + x").1 starts).resolve_right ?_
    rintro ⟨cause, _, failed, _⟩
    rw [failed] at reads
    cases reads
  · refine (continuing_writes_ans history "x *2").2.1 ?_
    rintro ⟨symbol, _, known, ⟨rest, starts⟩, _⟩
    obtain ⟨c, tail, whole, mark⟩ := Grammar.exists_mark (Table.mem_keys known)
    have text : "x *2".toList = ['x', ' ', '*', '2'] := rfl
    rw [whole, List.cons_append, text] at starts
    obtain ⟨rfl, _⟩ := List.cons.inj starts
    cases mark

end Session

end Abacus
