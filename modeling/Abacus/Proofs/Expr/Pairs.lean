import Abacus.Proofs.Expr.Composed

/-!
# Pairs of parentheses

The texts that lack one of the added pairs of parentheses are the rendered text without such a
pair, and each pair that is added is missing in one of them.
-/

namespace Abacus.Expr

/-! ## What is left out -/

/-- Whether a text is another one without a pair of parentheses around a balanced text. -/
def OmitsPair (whole less : List Char) : Prop :=
  ∃ before inner after, Parse.balanced inner ∧ whole = before ++ '(' :: (inner ++ ')' :: after) ∧
    less = before ++ (inner ++ after)

theorem omitsPair_around {inner : List Char} (balanced : Parse.balanced inner) :
    OmitsPair ('(' :: (inner ++ [')'])) inner :=
  ⟨[], inner, [], balanced, rfl, (List.append_nil inner).symm⟩

theorem OmitsPair.within {whole less : List Char} (omits : OmitsPair whole less)
    (before after : List Char) :
    OmitsPair (before ++ (whole ++ after)) (before ++ (less ++ after)) := by
  obtain ⟨first, inner, last, balanced, rfl, rfl⟩ := omits
  exact ⟨before ++ first, inner, last ++ after, balanced, by simp, by simp⟩

theorem OmitsPair.parenthesised {whole less : String} (omits : OmitsPair whole.toList less.toList)
    (needed : Bool) :
    OmitsPair (parenthesised needed whole).toList (parenthesised needed less).toList := by
  cases needed
  · exact omits
  · simpa [Expr.parenthesised] using omits.within ['('] [')']

theorem exists_intercalate (separator : List Char) (front back : List (List Char)) :
    ∃ before after, ∀ text,
      separator.intercalate (front ++ text :: back) = before ++ (text ++ after) := by
  induction front with
  | nil =>
    cases back with
    | nil => exact ⟨[], [], by simp⟩
    | cons next back => exact ⟨[], separator ++ separator.intercalate (next :: back), by simp⟩
  | cons first front inductionHypothesis =>
    obtain ⟨before, after, same⟩ := inductionHypothesis
    refine ⟨first ++ (separator ++ before), after, fun text => ?_⟩
    obtain ⟨next, rest, more⟩ := List.exists_cons_of_ne_nil
      (List.append_ne_nil_of_right_ne_nil front (List.cons_ne_nil text back))
    rw [List.cons_append, more, List.intercalate_cons_cons, ← more, same]
    simp

section

variable {p : Grammar.Plan} {g : Grammar} {leaf : Expr → Prop} {callable : Function → Nat → Prop}

theorem exists_omitsPair_of_mem {es : List Expr} (each : ∀ e ∈ es, ∀ text ∈ e.lessParensAt g .alone,
      OmitsPair (renderAt g .alone e).toList text.toList) :
    ∀ texts ∈ lessParensAll g es, ∃ front whole less back, OmitsPair whole less ∧
      (renderAll g es).map String.toList = front ++ whole :: back ∧
      texts.map String.toList = front ++ less :: back := by
  induction es with
  | nil => exact fun _ impossible => by cases impossible
  | cons e es inductionHypothesis =>
    intro texts member
    rw [List.forall_mem_cons] at each
    rw [lessParensAll, List.mem_append, List.mem_map, List.mem_map] at member
    rcases member with ⟨text, among, rfl⟩ | ⟨rest, among, rfl⟩
    · exact ⟨[], _, _, _, each.1 text among, rfl, rfl⟩
    · obtain ⟨front, whole, less, back, omits, rendered, same⟩ := inductionHypothesis each.2 rest among
      exact ⟨(renderAt g .alone e).toList :: front, whole, less, back, omits,
        by rw [renderAll, List.map_cons, rendered]; rfl, by rw [List.map_cons, same]; rfl⟩

variable (accepted : p.toGrammar = .ok g)
  (atomic : ∀ v place, leaf (.literal v) → literalNeedsParens v place = false)
  (balanced : ∀ y, Composed g leaf callable y → Parse.balanced y.plain)
include accepted atomic balanced

theorem Composed.omitsPair {e : Expr} (composed : Composed g leaf callable e) {place : Place}
    {floor : Nat} (stands : place.Floor floor) : ∀ text ∈ e.lessParensAt g place,
      OmitsPair (renderAt g place e).toList text.toList := by
  -- The pair that is missing stands around the operation itself or around something inside of it.
  induction composed generalizing place floor with
  | @literal v good =>
    rw [lessParensAt, atomic v place good]
    exact fun _ impossible => by cases impossible
  | cell _ => exact fun _ impossible => by cases impossible
  | @binary row o l r operates composedLeft composedRight leftHypothesis rightHypothesis =>
    obtain ⟨leftFloor, rightFloor⟩ := floors_of_operates accepted operates
    obtain ⟨left, writesLeft, _⟩ := composedLeft.exists_fits accepted atomic leftFloor
    obtain ⟨right, writesRight, _⟩ := composedRight.exists_fits accepted atomic rightFloor
    intro text member
    simp only [lessParensAt, List.mem_append, List.mem_map] at member
    rcases member with (added | ⟨l', among, rfl⟩) | ⟨r', among, rfl⟩
    · split at added
      · rename_i needed
        cases List.mem_singleton.1 added
        have whole := writesLeft.binary operates writesRight
        have inner := balanced _ whole.composed
        rw [← whole.text] at inner
        rw [renderAt, needed]
        simpa [Expr.parenthesised] using omitsPair_around inner
      · cases added
    · refine OmitsPair.parenthesised ?_ _
      simpa using (leftHypothesis leftFloor l' among).within [] _
    · refine OmitsPair.parenthesised ?_ _
      let front := renderAt g (.leftOf (g.operatorRow? o.symbol) (g.associativity? o.symbol)) l
      simpa using (rightHypothesis rightFloor r' among).within
        (front.toList ++ ' ' :: (o.symbol.toList ++ [' '])) []
  | @call f es _ _ inductionHypothesis =>
    intro text member
    rw [lessParensAt, List.mem_map] at member
    obtain ⟨texts, among, rfl⟩ := member
    obtain ⟨front, whole, less, back, omits, rendered, same⟩ := exists_omitsPair_of_mem
      (fun e member => inductionHypothesis e member .alone) texts among
    obtain ⟨before, after, put⟩ := exists_intercalate [',', ' '] front back
    have arguments : OmitsPair (", ".intercalate (renderAll g es)).toList
        (", ".intercalate texts).toList := by
      rw [String.toList_intercalate, String.toList_intercalate, rendered, same]
      exact put whole ▸ put less ▸ omits.within before after
    rw [renderAt]
    simpa using arguments.within (f.name.toList ++ ['(']) [')']
  | parens _ inductionHypothesis =>
    intro text member
    obtain ⟨inner, among, rfl⟩ := List.mem_map.1 member
    rw [renderAt]
    simpa using (inductionHypothesis .alone inner among).within ['('] [')']

end

/-! ## How many pairs there are -/

theorem count_intercalate {separator : List Char} {c : Char} (outside : c ∉ separator)
    (texts : List (List Char)) :
    (separator.intercalate texts).count c = (texts.map (List.count c)).sum := by
  induction texts with
  | nil => rfl
  | cons text texts inductionHypothesis =>
    cases texts with
    | nil => simp
    | cons next texts =>
      rw [List.map_cons, List.sum_cons, ← inductionHypothesis, List.intercalate_cons_cons,
        List.count_append, List.count_append, List.count_eq_zero.2 outside, Nat.add_zero]

theorem count_parenthesised (needed : Bool) (text : String) :
    (parenthesised needed text).toList.count '(' =
      text.toList.count '(' + if needed then 1 else 0 := by
  rw [toList_parenthesised]
  cases needed <;> simp

theorem count_modifierGap (side : Side) (e : Expr) : (modifierGap side e).toList.count '(' = 0 := by
  unfold modifierGap
  split
  · split <;> rfl
  · rfl

/-- Whether an expression is written with a pair of parentheses in every place. -/
def isEnclosing : Expr → Bool
  | .call _ _ | .parens _ | .branches _ _ => true
  | .literal _ | .cell _ | .binary _ _ _ | .unary _ _ => false

/-- What an expression is written with besides its parts. -/
def ownText : Expr → String
  | .literal v => v.text
  | .cell c => c.name
  | .binary o _ _ => o.symbol
  | .unary m _ => m.symbol
  | .call f _ => f.name
  | .parens _ | .branches _ _ => ""

/-- Whether no name, symbol or literal of an expression has a parenthesis in it. -/
def Unbracketed (e : Expr) : Prop := ∀ x ∈ e.subexpressions, '(' ∉ x.ownText.toList

namespace Unbracketed

variable {e : Expr} (unbracketed : e.Unbracketed)
include unbracketed

theorem own : e.ownText.toList.count '(' = 0 :=
  List.count_eq_zero.2 (unbracketed e (mem_subexpressions_self e))

theorem part {x : Expr} (member : x ∈ e.subexpressions) : x.Unbracketed :=
  fun y inside => unbracketed y (mem_subexpressions_trans inside member)

end Unbracketed

mutual

/-- The pairs of a rendered text are those that a text can lack and those that are always there. -/
theorem count_renderAt (g : Grammar) : ∀ (e : Expr) (place : Place), e.Unbracketed →
    (renderAt g place e).toList.count '(' =
      (e.lessParensAt g place).length + e.subexpressions.countP isEnclosing
  | .literal v, place, unbracketed => by
    have own : v.text.toList.count '(' = 0 := unbracketed.own
    rw [renderAt, count_parenthesised, lessParensAt, own]
    split <;> simp [subexpressions, isEnclosing]
  | .cell c, _, unbracketed => unbracketed.own
  | .binary o l r, place, unbracketed => by
    have own : o.symbol.toList.count '(' = 0 := unbracketed.own
    have left := count_renderAt g l (.leftOf (g.operatorRow? o.symbol) (g.associativity? o.symbol))
      (unbracketed.part (by simp [subexpressions, mem_subexpressions_self]))
    have right := count_renderAt g r
      (.rightOf (g.operatorRow? o.symbol) (g.associativity? o.symbol))
      (unbracketed.part (by simp [subexpressions, mem_subexpressions_self]))
    rw [renderAt, count_parenthesised, lessParensAt]
    simp [subexpressions, isEnclosing, own, left, right]
    split <;> simp <;> omega
  | .unary m e, place, unbracketed => by
    have own : m.symbol.toList.count '(' = 0 := unbracketed.own
    have operand := count_renderAt g e (.operandOf (g.modifierRow? m.symbol m.side) m.side)
      (unbracketed.part (by simp [subexpressions, mem_subexpressions_self]))
    have gap := count_modifierGap m.side e
    rw [renderAt, count_parenthesised, lessParensAt]
    cases side : m.side with
    | before | after =>
      rw [side] at operand gap
      simp [subexpressions, isEnclosing, own, gap, operand]
      split
      · simp
        omega
      · simp
  | .call f es, _, unbracketed => by
    have own : f.name.toList.count '(' = 0 := unbracketed.own
    have arguments := count_renderAll g es fun e member => unbracketed.part
      (List.mem_cons_of_mem _ (mem_subexpressionsAll.2 ⟨e, member, mem_subexpressions_self e⟩))
    rw [renderAt, lessParensAt, subexpressions, List.countP_cons_of_pos (by rfl)]
    simp [own, arguments]
    omega
  | .parens e, _, unbracketed => by
    have inner := count_renderAt g e .alone
      (unbracketed.part (by simp [subexpressions, mem_subexpressions_self]))
    rw [renderAt, lessParensAt, subexpressions, List.countP_cons_of_pos (by rfl)]
    simp [inner]
    omega
  | .branches a b, _, unbracketed => by
    have first := count_renderAt g a .alone
      (unbracketed.part (by simp [subexpressions, mem_subexpressions_self]))
    have second := count_renderAt g b .alone
      (unbracketed.part (by simp [subexpressions, mem_subexpressions_self]))
    rw [renderAt, lessParensAt, subexpressions, List.countP_cons_of_pos (by rfl)]
    simp [first, second]
    omega

theorem count_renderAll (g : Grammar) : ∀ es : List Expr, (∀ e ∈ es, e.Unbracketed) →
    ([',', ' '].intercalate ((renderAll g es).map String.toList)).count '(' =
      (lessParensAll g es).length + (subexpressionsAll es).countP isEnclosing
  | [], _ => rfl
  | e :: rest, each => by
    have first := count_renderAt g e .alone (each e List.mem_cons_self)
    have others := count_renderAll g rest fun x member => each x (List.mem_cons_of_mem e member)
    rw [count_intercalate (by decide)] at others
    rw [renderAll, lessParensAll, subexpressionsAll, count_intercalate (by decide)]
    simp only [List.map_cons, List.sum_cons, List.length_append, List.length_map,
      List.countP_append]
    omega

end

end Abacus.Expr
