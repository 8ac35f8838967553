import Abacus.Eval.Step

/-!
# Parts and parentheses of expressions

The expressions inside of an expression, and what is left of an expression without the parentheses
around it, which evaluations look through, or without any parentheses.
-/

namespace Abacus.Expr

/-! ## Subexpressions -/

mutual

/-- An expression and all expressions inside of it. -/
def subexpressions : Expr → List Expr
  | .literal v => [.literal v]
  | .cell c => [.cell c]
  | .binary o l r => .binary o l r :: (l.subexpressions ++ r.subexpressions)
  | .unary m e => .unary m e :: e.subexpressions
  | .call f arguments => .call f arguments :: subexpressionsAll arguments
  | .parens inner => .parens inner :: inner.subexpressions
  | .branches a b => .branches a b :: (a.subexpressions ++ b.subexpressions)

def subexpressionsAll : List Expr → List Expr
  | [] => []
  | e :: rest => e.subexpressions ++ subexpressionsAll rest

end

theorem mem_subexpressionsAll {es : List Expr} {x : Expr} :
    x ∈ subexpressionsAll es ↔ ∃ e ∈ es, x ∈ e.subexpressions := by
  induction es with
  | nil => simp [subexpressionsAll]
  | cons e rest inductionHypothesis => simp [subexpressionsAll, inductionHypothesis]

theorem mem_subexpressions_self (e : Expr) : e ∈ e.subexpressions := by
  cases e <;> simp [subexpressions]

mutual

theorem mem_subexpressions_trans {x y : Expr} (inner : y ∈ x.subexpressions) :
    ∀ {e : Expr}, x ∈ e.subexpressions → y ∈ e.subexpressions
  | .literal _, member | .cell _, member => by
    rwa [← List.mem_singleton.1 member]
  | .binary _ l r, member => by
    rw [subexpressions, List.mem_cons, List.mem_append] at member
    rcases member with rfl | left | right
    · exact inner
    · exact List.mem_cons_of_mem _ (List.mem_append_left _ (mem_subexpressions_trans inner left))
    · exact List.mem_cons_of_mem _ (List.mem_append_right _ (mem_subexpressions_trans inner right))
  | .unary _ e, member => by
    rcases List.mem_cons.1 member with rfl | operand
    · exact inner
    · exact List.mem_cons_of_mem _ (mem_subexpressions_trans inner operand)
  | .call _ es, member => by
    rcases List.mem_cons.1 member with rfl | argument
    · exact inner
    · exact List.mem_cons_of_mem _ (mem_subexpressionsAll_trans inner argument)
  | .parens e, member => by
    rcases List.mem_cons.1 member with rfl | inside
    · exact inner
    · exact List.mem_cons_of_mem _ (mem_subexpressions_trans inner inside)
  | .branches a b, member => by
    rw [subexpressions, List.mem_cons, List.mem_append] at member
    rcases member with rfl | left | right
    · exact inner
    · exact List.mem_cons_of_mem _ (List.mem_append_left _ (mem_subexpressions_trans inner left))
    · exact List.mem_cons_of_mem _ (List.mem_append_right _ (mem_subexpressions_trans inner right))

theorem mem_subexpressionsAll_trans {x y : Expr} (inner : y ∈ x.subexpressions) :
    ∀ {es : List Expr}, x ∈ subexpressionsAll es → y ∈ subexpressionsAll es
  | _ :: _, member => by
    rcases List.mem_append.1 member with first | later
    · exact List.mem_append_left _ (mem_subexpressions_trans inner first)
    · exact List.mem_append_right _ (mem_subexpressionsAll_trans inner later)

end

/-! ## Without parentheses around -/

/-- An expression without the parentheses around it. -/
def unwrapped : Expr → Expr
  | .parens inner => inner.unwrapped
  | e => e

theorem isInert_unwrapped : ∀ e : Expr, e.isInert = e.unwrapped.isInert
  | .parens inner => isInert_unwrapped inner
  | .literal _ | .cell _ | .binary _ _ _ | .unary _ _ | .call _ _ | .branches _ _ => rfl

theorem unwrapped_ne_parens : ∀ e inner : Expr, e.unwrapped ≠ .parens inner
  | .parens e, inner => unwrapped_ne_parens e inner
  | .literal _, _ | .cell _, _ | .binary _ _ _, _ | .unary _ _, _ | .call _ _, _
  | .branches _ _, _ => Expr.noConfusion

theorem unwrapped_mem_subexpressions : ∀ e : Expr, e.unwrapped ∈ e.subexpressions
  | .parens inner => List.mem_cons_of_mem _ (unwrapped_mem_subexpressions inner)
  | .literal _ | .cell _ | .binary _ _ _ | .unary _ _ | .call _ _ | .branches _ _ =>
    List.mem_cons_self

theorem step_unwrapped (eval : Evaluator) : ∀ e : Expr, e.step eval = e.unwrapped.step eval
  | .parens inner => step_unwrapped eval inner
  | .literal _ | .cell _ | .binary _ _ _ | .unary _ _ | .call _ _ | .branches _ _ => rfl

theorem resolve_unwrapped (eval : Evaluator) : ∀ e : Expr,
    e.resolve eval = e.unwrapped.resolve eval
  | .parens inner => resolve_unwrapped eval inner
  | .literal _ | .cell _ | .binary _ _ _ | .unary _ _ | .call _ _ | .branches _ _ => rfl

/-! ## Without any parentheses -/

mutual

/-- An expression without the parentheses that were written. -/
def withoutParens : Expr → Expr
  | .literal v => .literal v
  | .cell c => .cell c
  | .binary o l r => .binary o l.withoutParens r.withoutParens
  | .unary m e => .unary m e.withoutParens
  | .call f es => .call f (withoutParensAll es)
  | .parens inner => inner.withoutParens
  | .branches a b => .branches a.withoutParens b.withoutParens

def withoutParensAll : List Expr → List Expr
  | [] => []
  | e :: rest => e.withoutParens :: withoutParensAll rest

end

theorem withoutParensAll_eq_map (es : List Expr) :
    withoutParensAll es = es.map withoutParens := by
  induction es with
  | nil => rfl
  | cons e rest inductionHypothesis => rw [withoutParensAll, inductionHypothesis, List.map_cons]

/-! ## Integers -/

/-- Whether an expression is the integer `n`. -/
def isInteger (n : Int) : Expr → Bool
  | .literal (some (.integer m)) => m = n
  | _ => false

theorem eq_of_isInteger {n : Int} {e : Expr} (same : e.isInteger n) :
    e = .literal (some (.integer n)) := by
  unfold isInteger at same
  split at same
  · rw [of_decide_eq_true same]
  · cases same

end Abacus.Expr
