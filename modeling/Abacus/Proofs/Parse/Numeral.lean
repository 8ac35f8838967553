import Abacus.Proofs.Parse.Compact

/-!
# Texts of exact numbers

The text of an exact number is no literal if the number is negative or a fraction.  Such a text
has no blanks, so it is one token, which is cut at its sign and its slash; it parses to the
quotient of the literals of its digits, with the negation of the numerator if there is a sign.
-/

namespace Abacus

open Grammar (standard)

namespace Expr

def negation : Modifier := ⟨"-", .before, .transform .negate⟩

def division : Operator := ⟨"/", .combine .div⟩

def numeral (n : Nat) : Expr := .literal (some (.integer n))

/-- The expression that the text of an integer reads as. -/
def signed (n : Int) : Expr :=
  if n < 0 then .unary negation (numeral n.natAbs) else numeral n.natAbs

def quotient (n : Int) (d : Nat) : Expr := .binary division (signed n) (numeral d)

theorem chained_signed {row : Nat} (n : Int) (loose : row ≤ 8) : Chained row (signed n) := by
  refine Signed.chained ?_ loose
  unfold signed
  split
  · exact .sign ⟨_, rfl, rfl⟩ (.postfixed (.operand rfl))
  · exact .postfixed (.operand rfl)

theorem chained_quotient (n : Int) (d : Nat) : Chained 0 (quotient n d) := by
  have operates : standard.Operates 7 division := ⟨_, rfl, rfl⟩
  have denominator : Chained 8 (numeral d) := Postfixed.chained (.operand rfl) (Nat.le_refl 8)
  exact (Chained.left rfl operates (by omega) (chained_signed n (by omega)) denominator).weaken
    (Nat.zero_le 7)

end Expr

namespace Parse

open Text Lexeme
open Abacus.Expr (negation division)

/-! ## Lines of one token -/

/-- A line without blanks that is no operand is parsed into what its segments are grouped into. -/
theorem parse_of_cut {scope : Scope} (grammar : scope.grammar = standard) {e : Expr}
    (chained : Expr.Chained 0 e) {line : String} {segments : List (List Char)}
    (filled : line.toList ≠ []) (nested : Nested (fun c => isBlank c = false) line.toList)
    (noOperand : ∀ parser, operand? scope parser line.toList = pure none)
    (cut : ∀ {t : Tokenizer}, t.config = symbolConfig → t.Cut line.toList segments)
    (reads : ∀ cuts parser, segments.mapM (segmentItems scope cuts parser) =
      pure ((e.items standard).map fun i => [i.undecided standard])) :
    parse scope line = .ok ⟨some e, ∅⟩ := by
  obtain ⟨cuts, made⟩ := exists_cuts scope.grammar
  have symbols := (config_of_ofGrammar (grammar ▸ made)).2
  have token := token_of_nested (grammar ▸ made) filled nested
  have tokens := Tokenizer.tokens_of_cut (protects_config symbols) (cut symbols)
  obtain ⟨l, decides, groups⟩ := decide_toExpr chained (scope.leadingOf true line.toList)
  have items : ((e.items standard).map fun i => [i.undecided standard]).flatten =
      (e.items standard).map (Item.undecided standard) := by
    rw [← List.flatMap_def, List.map_eq_flatMap]
  have whole : readItems scope (scope.leadingOf true line.toList)
      ((e.items standard).map (Item.undecided standard)) = pure (some e) := by
    have lifts {α : Type} (a : α) : (liftM (.ok a : Except ParseError α) : Parsing α) = pure a := rfl
    rw [readItems, grammar, decides, lifts, pure_bind, groups, lifts, pure_bind]
  rw [parse_eq made, if_pos (balanced_of_nested nested), parseToDepth, parseWith_eq, token]
  simp only [List.mapM_cons, List.mapM_nil, noOperand, pure_bind, readEntries, tokenItems, tokens,
    reads, items, List.flatten_singleton, whole]
  rfl

/-! ## Numerals -/

theorem solid_digits (n : Nat) : Solid (Decimal.digits n) :=
  solid_of_words (Decimal.digits_ne_nil n) isWordChar_of_digits

theorem base_digits (scope : Scope) (n : Nat) :
    Base scope (String.ofList (Decimal.digits n)) ∧ Solid (String.ofList (Decimal.digits n)).toList := by
  refine ⟨.number (a := .integer n) ?_, ?_⟩
  · rw [String.toList_ofList]
    exact Number.ofText?_digits n
  · rw [String.toList_ofList]
    exact solid_digits n

section

variable {scope : Scope} (grammar : scope.grammar = standard)

include grammar

theorem segmentItems_digits (cuts : Cuts) (parser : NestedParser) (n : Nat) :
    segmentItems scope cuts parser (Decimal.digits n) = pure [.operand (Expr.numeral n)] := by
  have reads : operand? scope parser (String.ofList (Decimal.digits n)).toList =
      do return some (← pure (Expr.numeral n)) := by
    rw [String.toList_ofList, operand?_number (Number.ofText?_digits n)]
    rfl
  rw [← String.toList_ofList (l := Decimal.digits n)]
  exact segmentItems_operand grammar (by rw [String.toList_ofList]; exact solid_digits n) reads

theorem segmentItems_registered (cuts : Cuts) (parser : NestedParser) {symbol : String}
    (registered : Grammar.Registered symbol) : segmentItems scope cuts parser symbol.toList =
      pure [.symbol symbol ((standard.roles? symbol).getD {})] := by
  obtain ⟨roles, known⟩ := Table.exists_of_mem_keys registered
  have found : standard.roles? symbol = some roles := known
  rw [segmentItems_symbol grammar known, found]
  rfl

/-! ## Signs and slashes -/

theorem parse_digits (n : Nat) :
    parse scope (String.ofList (Decimal.digits n)) = .ok ⟨some (Expr.numeral n), ∅⟩ := by
  obtain ⟨cuts, made⟩ := exists_cuts scope.grammar
  obtain ⟨filled, nested⟩ := (base_digits scope n).1.nested
  rw [parse_eq made, if_pos (balanced_of_nested nested), parseToDepth, parseWith_eq,
    token_of_nested (grammar ▸ made) filled nested]
  rw [String.toList_ofList, List.mapM_cons, operand?_number (Number.ofText?_digits n)]
  rfl

theorem parse_of_terms {e : Expr} (chained : Expr.Chained 0 e) {text symbol : String}
    {rest : List String}
    (terms : Interleaved (fun text => Base scope text ∧ Solid text.toList) (text :: symbol :: rest))
    (reads : ∀ cuts parser, ((text :: symbol :: rest).map String.toList).mapM
        (segmentItems scope cuts parser) =
      pure ((e.items standard).map fun i => [i.undecided standard])) :
    parse scope (String.join (text :: symbol :: rest)) = .ok ⟨some e, ∅⟩ := by
  have bases := terms.mono fun _ => And.left
  refine parse_of_cut grammar chained ?_ bases.join_nested (fun parser => ?_) (fun config => ?_) reads
  · simp [(bases.pieces_nested text List.mem_cons_self).1]
  · cases bases with
    | cons base registered _ =>
      obtain ⟨c, tail, whole, mark⟩ := Grammar.exists_mark registered
      have joined : (String.join (text :: symbol :: rest)).toList =
          text.toList ++ c :: (tail ++ (String.join rest).toList) := by
        simp [whole]
      rw [joined]
      exact base.operand?_joined mark _
  · exact (cut_join config (terms.mono fun _ => And.right)).1

theorem parse_of_sign {e : Expr} (chained : Expr.Chained 0 e) {pieces : List String}
    (terms : Interleaved (fun text => Base scope text ∧ Solid text.toList) pieces)
    (reads : ∀ cuts parser, (("-" :: pieces).map String.toList).mapM (segmentItems scope cuts parser) =
      pure ((e.items standard).map fun i => [i.undecided standard])) :
    parse scope ("-" ++ String.join pieces) = .ok ⟨some e, ∅⟩ := by
  have registered : Grammar.Registered "-" := by decide
  have whole : ("-" ++ String.join pieces).toList = "-".toList ++ (String.join pieces).toList := by
    simp
  refine parse_of_cut grammar chained ?_ ?_ (fun parser => ?_) (fun config => ?_) reads
  · simp
  · rw [whole]
    exact .char rfl (by decide) (by decide) (terms.mono fun _ => And.left).join_nested
  · rw [whole]
    exact operand?_of_symbol registered _
  · rw [whole]
    obtain ⟨cut, quiet⟩ := cut_join config (terms.mono fun _ => And.right)
    exact cut_separator config registered quiet cut

section

variable (cuts : Cuts) (parser : NestedParser)

theorem segmentItems_minus : segmentItems scope cuts parser "-".toList =
    pure [(Item.before ⟨8, negation⟩).undecided standard] :=
  segmentItems_registered grammar cuts parser (by decide)

theorem segmentItems_slash : segmentItems scope cuts parser "/".toList =
    pure [(Item.operator ⟨7, division⟩).undecided standard] :=
  segmentItems_registered grammar cuts parser (by decide)

end

theorem parse_integer (n : Int) :
    parse scope (Number.integer n).text = .ok ⟨some (Expr.signed n), ∅⟩ := by
  have chained := Expr.chained_signed n (Nat.zero_le 8)
  rw [Number.text, Decimal.intText]
  unfold Expr.signed at chained ⊢
  split
  · rename_i negative
    rw [if_pos negative] at chained
    have whole : String.ofList ('-' :: Decimal.digits n.natAbs) =
        "-" ++ String.join [String.ofList (Decimal.digits n.natAbs)] :=
      String.toList_injective (by simp)
    rw [whole]
    refine parse_of_sign grammar chained (.last (base_digits scope n.natAbs)) fun cuts parser => ?_
    simp only [List.map_cons, List.map_nil, String.toList_ofList, List.mapM_cons, List.mapM_nil,
      segmentItems_minus grammar, segmentItems_digits grammar, pure_bind]
    rfl
  · exact parse_digits grammar n.natAbs

theorem parse_fraction (n : Int) (d : Nat) :
    parse scope (Number.fraction n d).text = .ok ⟨some (Expr.quotient n d), ∅⟩ := by
  have chained := Expr.chained_quotient n d
  have terms : Interleaved (fun text => Base scope text ∧ Solid text.toList)
      [String.ofList (Decimal.digits n.natAbs), "/", String.ofList (Decimal.digits d)] :=
    .cons (base_digits scope n.natAbs) (by decide) (.last (base_digits scope d))
  rw [Number.text, Decimal.intText]
  unfold Expr.quotient Expr.signed at chained ⊢
  split
  · rename_i negative
    rw [if_pos negative] at chained
    have whole : String.ofList ('-' :: Decimal.digits n.natAbs ++ '/' :: Decimal.digits d) =
        "-" ++ String.join
          [String.ofList (Decimal.digits n.natAbs), "/", String.ofList (Decimal.digits d)] :=
      String.toList_injective (by simp)
    rw [whole]
    refine parse_of_sign grammar chained terms fun cuts parser => ?_
    simp only [List.map_cons, List.map_nil, String.toList_ofList, List.mapM_cons, List.mapM_nil,
      segmentItems_minus grammar, segmentItems_slash grammar, segmentItems_digits grammar, pure_bind]
    rfl
  · rename_i positive
    rw [if_neg positive] at chained
    have whole : String.ofList (Decimal.digits n.natAbs ++ '/' :: Decimal.digits d) =
        String.join
          [String.ofList (Decimal.digits n.natAbs), "/", String.ofList (Decimal.digits d)] :=
      String.toList_injective (by simp)
    rw [whole]
    refine parse_of_terms grammar chained terms fun cuts parser => ?_
    simp only [List.map_cons, List.map_nil, String.toList_ofList, List.mapM_cons, List.mapM_nil,
      segmentItems_slash grammar, segmentItems_digits grammar, pure_bind]
    rfl

end

end Parse

end Abacus
