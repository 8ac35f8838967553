import Abacus.Expr.Text
import Abacus.Proofs.Expr.Faithful

/-!
# Spelled-out expressions

The fully parenthesised text of an expression is the plain text of a spelled-out one, in which every
operation and every modification is in parentheses of its own.  So all its operands are operands by
themselves: it can be grouped in no other way, and no two symbols in it can be read as one.
-/

namespace Abacus.Expr

open Grammar (standard)

mutual

/-- The expression with the parentheses and the operands of its fully parenthesised text. -/
def spelled (names : String → Cell) : Expr → Expr
  | .literal v => enclosed (v.any fun a => !a.isAtomic) (settled names v)
  | .cell c => .cell c
  | .binary o l r => .parens (.binary o (l.spelled names) (r.spelled names))
  | .unary m e => .parens (.unary m (e.spelled names))
  | .call f arguments => .call f (spelledAll names arguments)
  | .parens inner => .parens (inner.spelled names)
  | .branches a b => .branches (a.spelled names) (b.spelled names)

def spelledAll (names : String → Cell) : List Expr → List Expr
  | [] => []
  | e :: rest => e.spelled names :: spelledAll names rest

end

theorem spelledAll_eq_map (names : String → Cell) (es : List Expr) :
    spelledAll names es = es.map (spelled names) := by
  induction es with
  | nil => rfl
  | cons e rest inductionHypothesis => rw [spelledAll, inductionHypothesis, List.map_cons]

/-! ## Operands in other places -/

section

variable {o : Operator} {m : Modifier} {e e' l l' r r' : Expr}

theorem Chained.binary_of_operands {row : Nat} (chained : Chained row (.binary o l r))
    (left : l'.isOperand) (right : r'.isOperand) : Chained row (.binary o l' r') := by
  have operand {row : Nat} {x : Expr} (isOperand : x.isOperand) (loose : row ≤ 8) : Chained row x :=
    (Postfixed.operand isOperand).chained loose
  generalize whole : Expr.binary o l r = e at chained
  induction chained with
  | signed signed =>
    cases whole
    cases signed with
    | postfixed postfixed =>
      cases postfixed with
      | operand impossible => cases impossible
    | power operates _ _ =>
      exact .signed (.power operates (.postfixed (.operand left)) (.postfixed (.operand right)))
  | tighter loose _ inductionHypothesis => exact .tighter loose (inductionHypothesis whole)
  | left tier operates loose _ _ _ _ =>
    cases whole
    exact .left tier operates loose (operand left (Nat.le_of_lt loose)) (operand right loose)
  | right tier operates loose _ _ _ _ =>
    cases whole
    exact .right tier operates loose (operand left loose) (operand right (Nat.le_of_lt loose))

theorem chained_unary_of_operand {row : Nat} (modifies : standard.Modifies row m)
    (operand : e.isOperand) : Chained 0 (.unary m e) := by
  have rows := Grammar.row_of_modifies modifies
  have signed : Signed (.unary m e) := by
    cases side : m.side with
    | before =>
      rcases rows.1 side with rfl | rfl
      · exact .sign modifies (.postfixed (.operand operand))
      · exact .step modifies (.postfixed (.operand operand)) (isBinary_of_isOperand operand)
    | after =>
      cases rows.2 side
      exact .postfixed (.after side modifies (.operand operand))
  exact signed.chained (Nat.zero_le 8)

end

/-! ## Spelled-out expressions -/

section

variable {leaf leaf' : Expr → Prop} {callable : Function → Nat → Prop} {names : String → Cell}
  {e : Expr}

theorem isOperand_spelled (legible : Legible leaf callable e) : (e.spelled names).isOperand := by
  cases legible with
  | @literal v _ =>
    have settles : (settled names v).isOperand :=
      settled_cases (P := fun x => x.isOperand) names v rfl fun _ => rfl
    exact enclosed_cases (P := fun x => x.isOperand) settles rfl
  | cell _ | binary _ _ _ _ | unary _ _ _ | call _ _ | parens _ => rfl

theorem Legible.spelled (literal : ∀ v, leaf (.literal v) → leaf' (settled names v))
    (cell : ∀ c, leaf (.cell c) → leaf' (.cell c)) (legible : Legible leaf callable e) :
    Legible leaf' callable (e.spelled names) := by
  induction legible with
  | @literal v good =>
    have settles := literal v good
    have legible : Legible leaf' callable (settled names v) := by
      revert settles
      exact settled_cases (P := fun x => leaf' x → Legible leaf' callable x) names v .literal
        fun _ => .cell
    exact enclosed_cases legible (.parens legible)
  | cell good => exact .cell (cell _ good)
  | binary operates chained left right leftHypothesis rightHypothesis =>
    exact .parens (.binary operates
      (chained.binary_of_operands (isOperand_spelled left) (isOperand_spelled right))
      leftHypothesis rightHypothesis)
  | unary modifies _ operand inductionHypothesis =>
    exact .parens (.unary modifies (chained_unary_of_operand modifies (isOperand_spelled operand))
      inductionHypothesis)
  | call good _ inductionHypothesis =>
    rw [Expr.spelled, spelledAll_eq_map]
    refine .call (by rwa [List.length_map]) fun x member => ?_
    obtain ⟨argument, among, rfl⟩ := List.mem_map.1 member
    exact inductionHypothesis argument among
  | parens _ inductionHypothesis => exact .parens inductionHypothesis

theorem modifierGap_of_isOperand {side : Side} (operand : e.isOperand) :
    modifierGap side e = "" := by
  cases e <;> first | rfl | cases operand

theorem text_eq_plain (legible : Legible leaf callable e) (named : ∀ name, (names name).name = name) :
    e.text.toList = (e.spelled names).plain := by
  induction legible with
  | @literal v _ =>
    rw [text, spelled, plain_enclosed, plain_settled named]
    cases v with
    | none => rfl
    | some a =>
      rw [literalText]
      cases atomic : a.isAtomic <;> simp [atomic, Value.text]
  | cell _ => rfl
  | binary _ _ _ _ leftHypothesis rightHypothesis =>
    rw [text, spelled, plain, plain]
    simp [leftHypothesis, rightHypothesis]
  | @unary row m e _ _ operand inductionHypothesis =>
    rw [text, spelled, plain, plain, modifierGap_of_isOperand (isOperand_spelled operand)]
    cases side : m.side <;> simp [inductionHypothesis]
  | @call f arguments _ _ inductionHypothesis =>
    have same : (arguments.map text).map String.toList = (arguments.map (spelled names)).map plain := by
      rw [List.map_map, List.map_map]
      exact List.map_congr_left inductionHypothesis
    rw [text, spelled, plain, spelledAll_eq_map, plainAll_eq_map, ← same, texts_eq_map]
    simp [String.toList_intercalate]
  | parens _ inductionHypothesis =>
    rw [text, spelled, plain]
    simp [inductionHypothesis]

/-- A spelled-out expression reads as it is spelled, which is the expression up to parentheses. -/
theorem stripped_unglued_spelled (legible : Legible leaf callable e)
    (finite : ∀ x ∈ e.subexpressions, x.isInfinite = false) :
    (e.spelled names).unglued.stripped (names "void") = e.stripped (names "void") := by
  induction legible with
  | @literal v _ =>
    rw [spelled, stripped_enclosed]
    cases v with
    | none => rfl
    | some a =>
      have infinite : a.isInfinite = false := finite _ (mem_subexpressions_self _)
      rw [settled, infinite]
      rfl
  | cell _ => rfl
  | binary _ _ _ _ leftHypothesis rightHypothesis =>
    have left := leftHypothesis fun x member =>
      finite x (List.mem_cons_of_mem _ (List.mem_append_left _ member))
    have right := rightHypothesis fun x member =>
      finite x (List.mem_cons_of_mem _ (List.mem_append_right _ member))
    rw [spelled, unglued, unglued, stripped, stripped, stripped, left, right]
  | @unary row m e _ _ operand inductionHypothesis =>
    have inner := inductionHypothesis fun x member => finite x (List.mem_cons_of_mem _ member)
    have alone : (e.spelled names).unglued.isBinary = false :=
      isBinary_unglued (isBinary_of_isOperand (isOperand_spelled operand))
    have apart : (Expr.unary m (e.spelled names).unglued).isGlued = false := by
      rw [isGlued, leftModifier?_of_not_binary alone]
      rfl
    rw [spelled, unglued, unglued, resigned_of_not_glued apart, stripped, stripped, stripped, inner]
  | @call f arguments _ _ inductionHypothesis =>
    have inner (x : Expr) (among : x ∈ arguments) :=
      inductionHypothesis x among fun y member =>
        finite y (List.mem_cons_of_mem _ (mem_subexpressionsAll.2 ⟨x, among, member⟩))
    rw [spelled, unglued, stripped, stripped, spelledAll_eq_map, ungluedAll_eq_map,
      strippedAll_eq_map, strippedAll_eq_map, List.map_map, List.map_map]
    exact congrArg _ (List.map_congr_left inner)
  | parens _ inductionHypothesis =>
    have inner := inductionHypothesis fun x member => finite x (List.mem_cons_of_mem _ member)
    rw [spelled, unglued, stripped, stripped, inner]

end

end Abacus.Expr
