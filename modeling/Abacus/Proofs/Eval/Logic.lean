import Abacus.Grammar.Standard
import Abacus.Proofs.Eval.Folding
import Abacus.Proofs.Grammar.Index

/-!
# Laws of logic

A value may have no truth value, and then it decides a conjunction or a disjunction as much as an
absorbing one does.  Still both of them regroup, and a negation moves to their operands.  The laws
are those of computations in any monad that stand for the operands.  It may be one that takes notes
of them, so the laws say which operands are evaluated, how often and in which order, as well as what
comes out.
-/

namespace Abacus

theorem Number.truth?_ofBool (t : Bool) : (Number.ofBool t).truth? = some t := by
  cases t <;> rfl

/-! ## Computations of truth values -/

section

variable {m : Type → Type} [Monad m]

def truthOf (operand : m Value) : m (Option Bool) := (Option.bind · Number.truth?) <$> operand

def numberOf (truth : m (Option Bool)) : m Value := Option.map Number.ofBool <$> truth

/-- Goes on unless a connective is decided: by its absorbing truth value or by the lack of one. -/
def unlessDecided (absorbing : Bool) (truth : Option Bool) (next : m (Option Bool)) :
    m (Option Bool) :=
  if truth = some !absorbing then next else pure truth

/-- Conjunction (`absorbing` is false) or disjunction (`absorbing` is true) of computations. -/
def inTurn (absorbing : Bool) (first second : m Value) : m Value :=
  numberOf do unlessDecided absorbing (← truthOf first) (truthOf second)

def transformed [MonadExcept EvalError m] (rule : UnaryRule) (operand : m Value) : m Value := do
  MonadExcept.ofExcept (rule.applyPresent (← operand))

variable [LawfulMonad m]

@[simp] theorem truthOf_numberOf (truth : m (Option Bool)) : truthOf (numberOf truth) = truth := by
  have restored : (fun t : Option Bool => (t.map Number.ofBool).bind Number.truth?) = id := by
    funext t
    cases t with
    | none => rfl
    | some t => exact Number.truth?_ofBool t
  rw [truthOf, numberOf, ← comp_map]
  exact (congrArg (· <$> truth) restored).trans (id_map truth)

theorem unlessDecided_bind (absorbing : Bool) (truth : Option Bool) (next last : m (Option Bool)) :
    (unlessDecided absorbing truth next >>= fun t => unlessDecided absorbing t last) =
      unlessDecided absorbing truth (next >>= fun t => unlessDecided absorbing t last) := by
  unfold unlessDecided
  by_cases undecided : truth = some !absorbing
  · rw [if_pos undecided, if_pos undecided]
  · rw [if_neg undecided, if_neg undecided, pure_bind, if_neg undecided]

theorem inTurn_assoc (absorbing : Bool) (first second third : m Value) :
    inTurn absorbing (inTurn absorbing first second) third =
      inTurn absorbing first (inTurn absorbing second third) := by
  simp only [inTurn, truthOf_numberOf, bind_assoc, unlessDecided_bind]

theorem map_unlessDecided (absorbing : Bool) (truth : Option Bool) (next : m (Option Bool)) :
    Option.map not <$> unlessDecided absorbing truth next =
      unlessDecided (!absorbing) (truth.map not) (Option.map not <$> next) := by
  have dual : truth.map not = some (!!absorbing) ↔ truth = some !absorbing := by
    rcases truth with _ | _ | _ <;> cases absorbing <;> decide
  unfold unlessDecided
  by_cases undecided : truth = some !absorbing
  · rw [if_pos undecided, if_pos (dual.2 undecided)]
  · rw [if_neg undecided, if_neg (mt dual.1 undecided), map_pure]

variable [MonadExcept EvalError m]

theorem transformed_not (operand : m Value) :
    transformed UnaryRule.not operand = numberOf (Option.map not <$> truthOf operand) := by
  have inverts (v : Value) : UnaryRule.not.applyPresent v =
      .ok (((v.bind Number.truth?).map not).map Number.ofBool) := by
    cases v with
    | none => rfl
    | some a =>
      show Except.ok (a.truth?.map fun t => Number.ofBool !t) = _
      rw [Option.bind_some, Option.map_map]
      rfl
  simp only [transformed, numberOf, truthOf, ← comp_map, inverts]
  exact bind_pure_comp _ _

theorem transformed_not_inTurn (absorbing : Bool) (first second : m Value) :
    transformed UnaryRule.not (inTurn absorbing first second) =
      inTurn (!absorbing) (transformed UnaryRule.not first) (transformed UnaryRule.not second) := by
  simp only [inTurn, transformed_not, truthOf_numberOf, map_bind, map_unlessDecided, bind_map_left]

end

/-! ## Expressions -/

/-- The operators `&&` (`absorbing` is false) and `||` (`absorbing` is true). -/
def Operator.connective (absorbing : Bool) : Operator :=
  if absorbing then ⟨"||", .disjunction⟩ else ⟨"&&", .conjunction⟩

def Modifier.negation : Modifier := ⟨"!", .before, .transform UnaryRule.not⟩

theorem Grammar.operator?_connective (absorbing : Bool) :
    Grammar.standard.operator? (if absorbing then "||" else "&&") =
      some (.connective absorbing) := by
  cases absorbing <;> rfl

namespace Expr

/-- Evaluates an expression, given any way to evaluate its operands: the expressions that stand
    below its parentheses, its connectives and the modifiers that transform a value. -/
def logic {m : Type → Type} [Monad m] [MonadExcept EvalError m] (operand : Expr → m Value) :
    Expr → m Value
  | .parens inner => inner.logic operand
  | .binary o left right =>
    match o.action with
    | .conjunction => inTurn false (left.logic operand) (right.logic operand)
    | .disjunction => inTurn true (left.logic operand) (right.logic operand)
    | _ => operand (.binary o left right)
  | .unary modifier inner =>
    match modifier.action with
    | .transform rule => transformed rule (inner.logic operand)
    | _ => operand (.unary modifier inner)
  | e => operand e

section

variable {m : Type → Type} [Monad m] [MonadExcept EvalError m] (operand : Expr → m Value)

theorem logic_parens (depth : Nat) (e : Expr) :
    (parens^[depth] e).logic operand = e.logic operand := by
  induction depth with
  | zero => rfl
  | succ depth inductionHypothesis => rwa [Function.iterate_succ_apply']

theorem logic_connective (absorbing : Bool) (left right : Expr) :
    (Expr.binary (.connective absorbing) left right).logic operand =
      inTurn absorbing (left.logic operand) (right.logic operand) := by
  cases absorbing <;> rfl

theorem logic_negation (inner : Expr) :
    (Expr.unary .negation inner).logic operand =
      transformed UnaryRule.not (inner.logic operand) := rfl

end

/-! ## Evaluation -/

theorem connective_bind_evaluate (absorbing : Bool) (v : Value) (right : Expr) :
    (Abacus.connective evaluate absorbing (.value v) (.expr right) >>= evaluate) =
      numberOf (unlessDecided absorbing (v.bind Number.truth?) (truthOf right.evaluate)) := by
  simp only [Abacus.connective, Operand.evaluate, pure_bind]
  unfold unlessDecided
  cases v.bind Number.truth? with
  | none => exact evaluate_literal none
  | some t =>
    dsimp only
    by_cases absorbs : t = absorbing
    · have decided : ¬ some t = some !absorbing := by
        rw [absorbs, Option.some.injEq]
        cases absorbing <;> decide
      rw [if_neg decided, if_pos absorbs]
      exact (pure_bind _ _).trans (evaluate_literal _)
    · have undecided : some t = some !absorbing := congrArg some (Bool.eq_not_of_ne absorbs)
      rw [if_pos undecided, if_neg absorbs]
      simp only [bind_assoc, pure_bind, evaluate_literal, numberOf, truthOf, ← comp_map]
      exact bind_pure_comp _ _

theorem evaluate_connective {o : Operator} {absorbing : Bool}
    (connects : o.action = if absorbing then .disjunction else .conjunction) (left right : Expr) :
    (Expr.binary o left right).evaluate = inTurn absorbing left.evaluate right.evaluate := by
  have steps : (Expr.binary o left right).evaluate = (do
      let v ← left.evaluate
      Abacus.connective evaluate absorbing (.value v) (.expr right) >>= evaluate) := by
    obtain ⟨symbol, action⟩ := o
    cases absorbing <;> cases connects <;>
      exact (evaluate_binary rfl left right).trans (bind_assoc _ _ _)
  simp only [steps, connective_bind_evaluate, inTurn, numberOf, truthOf, map_bind, bind_map_left]

/-- Evaluation evaluates logic with the operands evaluated in the same way. -/
theorem evaluate_eq_logic : ∀ e : Expr, e.evaluate = e.logic evaluate
  | .parens inner => (evaluate_parens inner).trans (evaluate_eq_logic inner)
  | .binary o left right => by
    have connective (absorbing : Bool)
        (connects : o.action = if absorbing then .disjunction else .conjunction) :
        (Expr.binary o left right).evaluate =
          inTurn absorbing (left.logic evaluate) (right.logic evaluate) := by
      rw [evaluate_connective connects, evaluate_eq_logic left, evaluate_eq_logic right]
    unfold logic
    cases action : o.action with
    | conjunction => exact connective false action
    | disjunction => exact connective true action
    | _ => rfl
  | .unary modifier inner => by
    unfold logic
    cases action : modifier.action with
    | transform rule =>
      rw [evaluate_transform action, evaluate_eq_logic inner]
      unfold transformed
      congr 1
      funext v
      cases rule.applyPresent v <;> rfl
    | _ => rfl
  | .literal _ | .cell _ | .call _ _ | .branches _ _ => rfl

/-! ## The laws -/

/-- Two expressions evaluate alike on every store.  Moreover they come to the same operands, equally
    often and in the same order, by whatever computations these are replaced. -/
structure SameCourse (e e' : Expr) : Prop where
  evaluate : e.evaluate = e'.evaluate
  logic {m : Type → Type} [Monad m] [LawfulMonad m] [MonadExcept EvalError m]
    (operand : Expr → m Value) : e.logic operand = e'.logic operand

theorem SameCourse.of_logic {e e' : Expr}
    (logic : ∀ {m : Type → Type} [Monad m] [LawfulMonad m] [MonadExcept EvalError m]
      (operand : Expr → m Value), e.logic operand = e'.logic operand) : SameCourse e e' where
  evaluate := by rw [evaluate_eq_logic e, evaluate_eq_logic e', logic]
  logic operand := logic operand

/-- Connectives regroup, and a negation of one negates its operands and makes it the dual one. -/
theorem connectives_obey_logic :
    (∀ absorbing, Grammar.standard.operator? (if absorbing then "||" else "&&") =
      some (.connective absorbing)) ∧
    Grammar.standard.modifier? "!" .before = some .negation ∧
    (∀ e : Expr, e.evaluate = e.logic evaluate) ∧
    ∀ (absorbing : Bool) (depth : Nat) (a b c : Expr),
      SameCourse
        (.binary (.connective absorbing) (parens^[depth] (.binary (.connective absorbing) a b)) c)
        (.binary (.connective absorbing) a (parens^[depth] (.binary (.connective absorbing) b c))) ∧
      SameCourse
        (.unary .negation (parens^[depth] (.binary (.connective absorbing) a b)))
        (.binary (.connective !absorbing) (.unary .negation a) (.unary .negation b)) := by
  refine ⟨Grammar.operator?_connective, rfl, evaluate_eq_logic, fun absorbing depth a b c =>
    ⟨.of_logic fun operand => ?_, .of_logic fun operand => ?_⟩⟩
  · simp only [logic_connective, logic_parens, inTurn_assoc]
  · simp only [logic_connective, logic_negation, logic_parens, transformed_not_inTurn]

/-- Takes note of the cells that it is asked for; each has its number as its value. -/
def noting : Expr → StateT (List Nat) (Except EvalError) Value
  | .cell c => do
    modify (· ++ [c.id])
    return some (.integer c.id)
  | _ => return none

/-- An operand without a truth value ends a conjunction, however it is grouped. -/
theorem undecided_operand_ends_both_groupings :
    let cell (id : Nat) : Expr := .cell ⟨id, "x", .variable⟩
    let and : Expr → Expr → Expr := .binary (.connective false)
    let left := and (.parens (and (cell 1) (cell 5))) (cell 1)
    let right := and (cell 1) (.parens (and (cell 5) (cell 1)))
    (left.logic noting).run [] = .ok (none, [1, 5]) ∧
      (right.logic noting).run [] = .ok (none, [1, 5]) := by
  intro cell and left right
  have ends : (left.logic noting).run [] = .ok (none, [1, 5]) := rfl
  obtain ⟨-, -, -, laws⟩ := connectives_obey_logic
  have regroups := (laws false 1 (cell 1) (cell 5) (cell 1)).1.logic noting
  exact ⟨ends, (congrArg (StateT.run · []) regroups).symm.trans ends⟩

end Expr

end Abacus
