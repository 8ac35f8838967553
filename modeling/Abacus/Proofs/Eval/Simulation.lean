import Abacus.Proofs.Eval.Simplification
import Mathlib.Data.List.Forall2

/-!
# Evaluations of simplified expressions

A simplified expression is evaluated to the same value in a simplified store, and the stores that
are left behind are again simplified.  Where arguments are put in for parameters this is said of
evaluations that give a value only: one that fails may have been too deep, and one that uses its
budget up may need less without the reads of the parameters.
-/

namespace Abacus

open Eval

/-- Causes that are the same but for the text of what cannot be assigned to. -/
inductive EvalError.Alike : EvalError → EvalError → Prop where
  | same (cause : EvalError) : Alike cause cause
  | notAssignable (target target' : String) : Alike (.notAssignable target) (.notAssignable target')

namespace Eval

/-- Outcomes that agree: results and stores are related, errors are alike, or both evaluations use
    their budgets up. -/
inductive Agree {α α' : Type} (R : α → α' → Prop) (S : Store → Store → Prop) :
    Option (Except EvalError α × Store) → Option (Except EvalError α' × Store) → Prop where
  | value {a : α} {a' : α'} {t t' : Store} : R a a' → S t t' →
      Agree R S (some (.ok a, t)) (some (.ok a', t'))
  | failure {cause cause' : EvalError} {t t' : Store} : cause.Alike cause' → S t t' →
      Agree R S (some (.error cause, t)) (some (.error cause', t'))
  | exhausted : Agree R S none none

def Forgiven {α : Type} (how : Simplification) (outcome : Option (Except EvalError α × Store)) :
    Prop :=
  how ≠ .unwrapping ∧ ∀ a t, outcome ≠ some (.ok a, t)

/-- Unless it is forgiven, the first computation agrees with the second one, which is run on a
    simplified store. -/
def Simulates {α α' : Type} (how : Simplification) (loan : Loan) (R : α → α' → Prop) (m : Eval α)
    (m' : Eval α') : Prop :=
  ∀ s s', Store.Simplifies how loan s s' →
    Forgiven how (m.runOn s) ∨
      Agree R (Store.Simplifies how loan) (m.runOn s) (m'.runOn s')

namespace Simulates

variable {how : Simplification} {loan : Loan} {lending : Lending} {α α' β β' : Type}
  {R : α → α' → Prop} {Q : β → β' → Prop}

theorem result {a : α} {a' : α'} (related : R a a') :
    Simulates how loan R (pure a : Eval α) (pure a' : Eval α') :=
  fun _ _ same => .inr (.value related same)

theorem failure {cause cause' : EvalError} (alike : cause.Alike cause') :
    Simulates how loan R (throw cause : Eval α) (throw cause' : Eval α') :=
  fun _ _ same => .inr (.failure alike same)

theorem bind {m : Eval α} {m' : Eval α'} {f : α → Eval β} {f' : α' → Eval β'}
    (first : Simulates how loan R m m')
    (second : ∀ a a', R a a' → Simulates how loan Q (f a) (f' a')) :
    Simulates how loan Q (m >>= f) (m' >>= f') := by
  intro s s' same
  rcases first s s' same with ⟨lenient, noValue⟩ | agree
  · -- The sequence has no value without one of its first part.
    refine .inl ⟨lenient, fun b t ends => ?_⟩
    rcases runOn_bind_eq_some.1 ends with ⟨a, u, value, _⟩ | ⟨_, _, impossible⟩
    · exact noValue a u value
    · cases impossible
  · rw [runOn_bind, runOn_bind]
    cases left : m.runOn s <;> cases right : m'.runOn s' <;> rw [left, right] at agree
    · exact .inr .exhausted
    · cases agree
    · cases agree
    · cases agree with
      | value related after => exact second _ _ related _ _ after
      | failure alike after => exact .inr (.failure alike after)

theorem bindSame {m m' : Eval α} {f : α → Eval β} {f' : α → Eval β'}
    (first : Simulates how loan Eq m m') (second : ∀ a, Simulates how loan Q (f a) (f' a)) :
    Simulates how loan Q (m >>= f) (m' >>= f') :=
  bind first fun a _ equal => equal ▸ second a

theorem ofExcept (r : Except EvalError α) :
    Simulates how loan Eq (Eval.ofExcept r) (Eval.ofExcept r) := by
  cases r with
  | ok a => exact result rfl
  | error cause => exact failure (.same cause)

theorem mapM {f : α → Eval β} {f' : α' → Eval β'} {as : List α} {as' : List α'}
    (each : List.Forall₂ (fun a a' => Simulates how loan Q (f a) (f' a')) as as') :
    Simulates how loan (List.Forall₂ Q) (as.mapM f) (as'.mapM f') := by
  induction each with
  | nil => exact result .nil
  | cons first _ inductionHypothesis =>
    rw [List.mapM_cons, List.mapM_cons]
    exact .bind first fun b b' related => .bind inductionHypothesis fun bs bs' all =>
      .result (.cons related all)

/-! ### Cells -/

theorem definition (fits : loan.Fits how lending) {c : Cell}
    (known : how.Lends c → lending = .shared) :
    Simulates how loan (Expr.Simplifies how lending) (Eval.definition c) (Eval.definition c) := by
  intro s s' same
  rw [runOn_definition, runOn_definition]
  refine .inr (.value ?_ same)
  by_cases lent : how.Lends c
  · -- A lent cell stands for the same value in both stores.
    rw [known lent] at fits ⊢
    obtain ⟨v, original, simplified⟩ := fits c lent
    rw [same.original c lent, same.simplified c lent, original, simplified]
    exact .literal v
  · exact (same.definition c lent).weaken lending

theorem definition_replaced {bindings : List (Cell × Expr)}
    (fits : loan.Fits how (.replaced bindings)) {c : Cell} {v : Value} (lent : how.Lends c)
    (given : Store.given bindings c = some (.literal v)) :
    Simulates how loan (Expr.Simplifies how (.replaced bindings)) (Eval.definition c)
      (pure (.literal v)) := by
  intro s s' same
  rw [runOn_definition, same.original c lent, fits c v lent given]
  exact .inr (.value (.literal v) same)

theorem define {c : Cell} (spared : ¬ how.Lends c) {e e' : Expr}
    (stored : Expr.Simplifies how .absent e e') :
    Simulates how loan (fun _ _ => True) (modify fun s => s.define c e : Eval Unit)
      (modify fun s => s.define c e') :=
  fun _ _ same => .inr (.value True.intro (same.define spared stored))

theorem assign {target target' : Expr} (targets : Expr.Simplifies how lending target target')
    (spares : how.Spares target) {e e' : Expr} (stored : Expr.Simplifies how .absent e e') :
    Simulates how loan (fun _ _ => True) (target.assign e) (target'.assign e') := by
  induction targets with
  | @cell _ c _ =>
    unfold Expr.assign
    split
    · exact .define (spares c rfl) stored
    · exact .failure (.same _)
  | replaced lent _ isCell => exact absurd lent (spares _ isCell)
  | parens _ _ inner => exact inner spares
  | unwrapped _ _ _ inner => exact inner spares
  | literal _ | binary _ _ _ _ _ _ _ | unary _ _ _ | call _ _ _ _ | branches _ _ _ _ =>
    exact .failure (.notAssignable _ _)

end Simulates

/-! ## Evaluators -/

/-- An evaluator whose evaluations agree with those of simplified expressions by another one. -/
structure Simulating (how : Simplification) (eval eval' : Evaluator) : Prop where
  simulates {loan : Loan} {lending : Lending} {e e' : Expr} : loan.Fits how lending →
    Expr.Simplifies how lending e e' → Simulates how loan Eq (eval e) (eval' e')
  literal (v : Value) (s : Store) :
    (eval (.literal v)).runOn s = none ∨ (eval (.literal v)).runOn s = some (.ok v, s)

namespace Simulates

variable {how : Simplification} {loan loan' : Loan} {lending : Lending} {eval eval' : Evaluator}

/-! ### Counted reads and calls -/

theorem ofLimit {n n' limit : Nat} (counts : how.Counts n n') {name : String}
    {m m' : Option (Except EvalError Value × Store)} {s s' : Store}
    (same : Store.Simplifies how loan s s')
    (below : Forgiven how m ∨ Agree Eq (Store.Simplifies how loan) m m') :
    Forgiven how (if limit ≤ n then some (.error (.tooDeep name), s) else m) ∨
      Agree Eq (Store.Simplifies how loan)
        (if limit ≤ n then some (.error (.tooDeep name), s) else m)
        (if limit ≤ n' then some (.error (.tooDeep name), s') else m') := by
  by_cases full : limit ≤ n
  · rw [if_pos full]
    cases how with
    | unwrapping =>
      rw [if_pos (counts ▸ full)]
      exact .inr (.failure (.same _) same)
    | substituting callee => exact .inl ⟨Simplification.noConfusion, fun _ _ => nofun⟩
  · rw [if_neg full, if_neg fun full' => full (Nat.le_trans full' counts.le)]
    exact below

theorem ofRestore {m m' : Option (Except EvalError Value × Store)} {change change' : Store → Store}
    (inner : Forgiven how m ∨ Agree Eq (Store.Simplifies how loan) m m')
    (restore : ∀ t t', Store.Simplifies how loan t t' →
      Store.Simplifies how loan' (change t) (change' t')) :
    Forgiven how (m.map fun (r, t) => (r, change t)) ∨
      Agree Eq (Store.Simplifies how loan') (m.map fun (r, t) => (r, change t))
        (m'.map fun (r, t) => (r, change' t)) := by
  rcases inner with ⟨lenient, noValue⟩ | agree
  · refine .inl ⟨lenient, fun v t ends => ?_⟩
    obtain ⟨⟨r, u⟩, inside, equal⟩ := Option.map_eq_some_iff.1 ends
    cases equal
    exact noValue v u inside
  · cases agree with
    | value related after => exact .inr (.value related (restore _ _ after))
    | failure alike after => exact .inr (.failure alike (restore _ _ after))
    | exhausted => exact .inr .exhausted

section

variable (simulating : Simulating how eval eval')

include simulating

theorem read (fits : loan.Fits how lending) {c : Cell} (known : how.Lends c → lending = .shared) :
    Simulates how loan Eq (reading c do eval (← Eval.definition c))
      (reading c do eval' (← Eval.definition c)) := by
  intro s s' same
  have inner : Simulates how loan Eq (do eval (← Eval.definition c))
      (do eval' (← Eval.definition c)) :=
    .bind (.definition fits known) fun _ _ related => simulating.simulates fits related
  rw [runOn_reading, runOn_reading]
  exact ofLimit (same.readDepth c) same
    (ofRestore (inner _ _ (same.enterRead c)) fun t t' after => after.leaveRead c)

theorem read_replaced {bindings : List (Cell × Expr)} (fits : loan.Fits how (.replaced bindings))
    {c : Cell} {v : Value} (lent : how.Lends c)
    (given : Store.given bindings c = some (.literal v)) :
    Simulates how loan Eq (reading c do eval (← Eval.definition c)) (pure v) := by
  intro s s' same
  have lenient : how ≠ .unwrapping := by
    rintro rfl
    exact lent
  rw [runOn_reading]
  by_cases full : readLimit ≤ s.readDepth c
  · rw [if_pos full]
    exact .inl ⟨lenient, fun _ _ => nofun⟩
  · rw [if_neg full, runOn_bind_ok (runOn_definition c _), (same.enterRead c).original c lent,
      fits c v lent given]
    rcases simulating.literal v (s.enterRead c) with exhausted | value
    · rw [exhausted]
      exact .inl ⟨lenient, fun _ _ => nofun⟩
    · rw [value]
      exact .inr (.value rfl (same.afterRead c))

theorem call {u : UserFunction} (known : how.Knows u) {arguments : List Value}
    (count : arguments.length = u.parameters.length) :
    Simulates how loan Eq (calling u arguments do eval ((← get).body u))
      (calling u arguments do eval' ((← get).body u)) := by
  intro s s' same
  have inside := same.enterCall u arguments
  rw [runOn_calling, runOn_calling, runOn_bind_ok (runOn_get _), runOn_bind_ok (runOn_get _)]
  have body := simulating.simulates (Store.Simplifies.fits_enterCall s s' u count)
    (inside.body u known)
  exact ofLimit (same.callDepth u) same
    (ofRestore (body _ _ inside) fun t t' after => same.leaveCall after)

theorem callFunction {f : Function} (known : ∀ u, f = .user u → how.Knows u)
    (arguments : List Value) :
    Simulates how loan Eq (f.call eval arguments) (f.call eval' arguments) := by
  by_cases count : arguments.length = f.arity
  · cases f with
    | builtin b =>
      rw [Function.call_builtin count, Function.call_builtin count]
      exact .ofExcept _
    | user u =>
      rw [Function.call_user count, Function.call_user count]
      exact call simulating (known u rfl) count
  · rw [Function.call_of_ne count, Function.call_of_ne count]
    exact .failure (.same _)

end

end Simulates

end Eval

/-! ## Operands -/

/-- Operands that are prepared alike from an expression and a simplified one.  A lent cell has no
    value without being evaluated, so nothing can be put in for it in a frozen operand. -/
inductive Operand.Simplifies (how : Simplification) (e e' : Expr) : Operand → Operand → Prop where
  | value (v : Value) : Simplifies how e e' (.value v) (.value v)
  | expr : Simplifies how e e' (.expr e) (.expr e')
  | frozen : how = .unwrapping → Simplifies how e e' (.frozen e) (.frozen e')

namespace Eval.Simulates

variable {how : Simplification} {loan : Loan} {lending : Lending} {eval eval' : Evaluator}
  {e e' : Expr} {o o' : Operand}

theorem obtain_operand (simulating : Simulating how eval eval') (fits : loan.Fits how lending)
    (same : Expr.Simplifies how lending e e') (now : Bool) :
    Simulates how loan (Operand.Simplifies how e e') (Operand.obtain eval now e)
      (Operand.obtain eval' now e') := by
  cases now with
  | false => exact .result .expr
  | true =>
    refine .bindSame (simulating.simulates fits same) fun v => ?_
    exact .result (.value v)

theorem evaluate (simulating : Simulating how eval eval') (fits : loan.Fits how lending)
    (same : Expr.Simplifies how lending e e') (operands : Operand.Simplifies how e e' o o') :
    Simulates how loan Eq (o.evaluate eval) (o'.evaluate eval') := by
  cases operands with
  | value v => exact .result rfl
  | expr => exact simulating.simulates fits same
  | frozen drops =>
    subst drops
    exact .result same.frozenValue_of_unwrapping.symm

theorem target (same : Expr.Simplifies how lending e e') (spares : how.Spares e)
    (operands : Operand.Simplifies how e e' o o') :
    Simulates how loan (fun t t' => Expr.Simplifies how lending t t' ∧ how.Spares t)
      (Eval.ofExcept o.target) (Eval.ofExcept o'.target) := by
  cases operands with
  | value v => exact .failure (.same _)
  | expr | frozen _ =>
    simp only [Operand.target, same.isVariable spares]
    split
    · exact .result ⟨same, spares⟩
    · exact .failure (.notAssignable _ _)

theorem offered (same : Expr.Simplifies how lending e e')
    (operands : Operand.Simplifies how e e' o o')
    (steps : Simulates how loan (Expr.Simplifies how lending) (e.step eval) (e'.step eval')) :
    Simulates how loan (Expr.Simplifies how lending)
      (if o.isInert then o.stepWith (e.step eval) else pure o.toExpr)
      (if o'.isInert then o'.stepWith (e'.step eval') else pure o'.toExpr) := by
  cases operands with
  | value v => exact .result (.literal v)
  | expr =>
    show Simulates how loan _ (if e.isInert then e.step eval else pure e)
      (if e'.isInert then e'.step eval' else pure e')
    rcases same.isInert with equal | ⟨bindings, c, v, rfl, lent, given, isCell, isLiteral⟩
    · rw [equal]
      split
      · exact steps
      · exact .result same
    · -- The lent cell would have to be read, and the literal in its place is a value already.
      have awake : e.isInert = false := by rw [Expr.isInert_unwrapped, isCell]; rfl
      have inert : e'.isInert = true := by rw [Expr.isInert_unwrapped, isLiteral]; rfl
      have value : e'.step eval' = pure (.literal v) := by
        rw [Expr.step_unwrapped, isLiteral]
        rfl
      rw [awake, inert, value]
      exact .result (.replaced lent given isCell)
  | frozen drops =>
    subst drops
    simp only [Operand.isInert, Operand.stepWith, Operand.toExpr, same.isInert_of_unwrapping]
    split
    · exact steps
    · exact .result same

theorem stepped (same : Expr.Simplifies how lending e e')
    (operands : Operand.Simplifies how e e' o o')
    (steps : Simulates how loan (Expr.Simplifies how lending) (e.step eval) (e'.step eval')) :
    Simulates how loan (Expr.Simplifies how lending) (o.stepWith (e.step eval))
      (o'.stepWith (e'.step eval')) := by
  cases operands with
  | value v => exact .result (.literal v)
  | expr => exact steps
  | frozen drops =>
    subst drops
    simp only [Operand.stepWith, same.isInert_of_unwrapping]
    split
    · exact steps
    · exact .result same

end Eval.Simulates

/-! ## Actions -/

/-- The two branches of an expression; what is no pair of branches is the first branch. -/
def Expr.asBranches : Expr → Expr × Expr
  | .branches whenTrue whenFalse => (whenTrue, whenFalse)
  | e => (e, .void)

theorem Expr.asBranches_of_single {e : Expr} (single : e.isPair = false) :
    e.asBranches = (e, .void) := by
  cases e with
  | branches _ _ => cases single
  | _ => rfl

theorem branchesOf_eq (right : Operand) (rightStep : Eval Expr) :
    branchesOf right rightStep =
      (if right.isInert then rightStep else pure right.toExpr) >>= fun e => pure e.asBranches := by
  unfold branchesOf
  split
  · congr 1
    funext e
    cases e <;> rfl
  · rename_i awake
    have single : right.toExpr.isPair = false := by
      cases right with
      | value _ => rfl
      | expr e | frozen e =>
        cases e with
        | branches _ _ => exact absurd rfl awake
        | _ => rfl
    rw [pure_bind, Expr.asBranches_of_single single]

theorem Expr.Simplifies.toExpr {how : Simplification} {lending : Lending} {e e' : Expr}
    (same : Expr.Simplifies how lending e e') {o o' : Operand}
    (operands : Operand.Simplifies how e e' o o') :
    Expr.Simplifies how lending o.toExpr o'.toExpr := by
  cases operands with
  | value v => exact .literal v
  | expr | frozen _ => exact same

namespace Eval.Simulates

variable {how : Simplification} {loan : Loan} {lending : Lending} {eval eval' : Evaluator}
  (simulating : Simulating how eval eval') (fits : loan.Fits how lending)
  {l l' r r' : Expr} (lefts : Expr.Simplifies how lending l l')
  (rights : Expr.Simplifies how lending r r') {left left' right right' : Operand}
  (ofLeft : Operand.Simplifies how l l' left left')
  (ofRight : Operand.Simplifies how r r' right right')

include simulating fits lefts rights ofLeft ofRight

theorem connective (absorbing : Bool) :
    Simulates how loan (Expr.Simplifies how lending) (Abacus.connective eval absorbing left right)
      (Abacus.connective eval' absorbing left' right') := by
  refine .bindSame (evaluate simulating fits lefts ofLeft) fun v => ?_
  cases v.bind Number.truth? with
  | none => exact .result (.literal _)
  | some t =>
    dsimp only
    split
    · exact .result (.literal _)
    · refine .bindSame (evaluate simulating fits rights ofRight) fun w => ?_
      exact .result (.literal _)

theorem selectBranch
    (steps : Simulates how loan (Expr.Simplifies how lending) (r.step eval) (r'.step eval')) :
    Simulates how loan (Expr.Simplifies how lending)
      (Abacus.selectBranch eval left right (right.stepWith (r.step eval)))
      (Abacus.selectBranch eval' left' right' (right'.stepWith (r'.step eval'))) := by
  refine .bindSame (evaluate simulating fits lefts ofLeft) fun v => ?_
  cases v.bind Number.truth? with
  | none => exact .result (.literal _)
  | some choice =>
    have both : Simulates how loan
        (fun p p' => Expr.Simplifies how lending p.1 p'.1 ∧ Expr.Simplifies how lending p.2 p'.2)
        (branchesOf right (right.stepWith (r.step eval)))
        (branchesOf right' (right'.stepWith (r'.step eval'))) := by
      rw [branchesOf_eq, branchesOf_eq]
      refine .bind (offered rights ofRight steps) fun e e' same => ?_
      rcases same.branches_or_single with
        ⟨a, b, a', b', rfl, rfl, firsts, seconds⟩ | ⟨single, single'⟩
      · exact .result ⟨firsts, seconds⟩
      · rw [Expr.asBranches_of_single single, Expr.asBranches_of_single single']
        exact .result ⟨same, .literal none⟩
    refine .bind both fun p p' same => .result ?_
    cases choice with
    | false => exact same.2
    | true => exact same.1

/-- A binding needs a right operand that does not mention lent cells. -/
theorem applyOperator (o : Operator) (spares : o.changes → how.Spares l)
    (stored : o.binds → Expr.Simplifies how .absent r r')
    (storedSteps : o.binds →
      Simulates how loan (Expr.Simplifies how .absent) (r.step eval) (r'.step eval'))
    (steps : Simulates how loan (Expr.Simplifies how lending) (r.step eval) (r'.step eval')) :
    Simulates how loan (Expr.Simplifies how lending)
      (o.applyWith eval left right (right.stepWith (r.step eval)))
      (o.applyWith eval' left' right' (right'.stepWith (r'.step eval'))) := by
  unfold Operator.applyWith
  cases action : o.action with
  | combine rule =>
    refine .bindSame (evaluate simulating fits lefts ofLeft) fun a => ?_
    refine .bindSame (evaluate simulating fits rights ofRight) fun b => ?_
    refine .bindSame (.ofExcept _) fun v => ?_
    exact .result (.literal v)
  | assign =>
    have spares := spares (by rw [Operator.changes, action])
    refine .bind (target lefts spares ofLeft) fun t t' targets => ?_
    refine .bindSame (evaluate simulating fits rights ofRight) fun v => ?_
    exact .bind (assign targets.1 targets.2 (.literal v)) fun _ _ _ => .result (.literal v)
  | bind =>
    have spares := spares (by rw [Operator.changes, action])
    have binds : o.binds := by rw [Operator.binds, action]
    -- The branches of the test go on in the same way, so they can be compared up to there.
    have offers (o : Operand) (step : Eval Expr) (f : Expr → Eval Expr) :
        (if o.isInert then step >>= f else pure o.toExpr >>= f) =
          (if o.isInert then step else pure o.toExpr) >>= f := by
      split <;> rfl
    refine .bind (target lefts spares ofLeft) fun t t' targets => ?_
    dsimp only
    rw [offers, offers]
    refine .bind (offered (stored binds) ofRight (storedSteps binds)) fun d d' definitions => ?_
    exact .bind (assign targets.1 targets.2 definitions) fun _ _ _ => .result targets.1
  | update rule =>
    have spares := spares (by rw [Operator.changes, action])
    refine .bind (target lefts spares ofLeft) fun t t' targets => ?_
    refine .bindSame (evaluate simulating fits lefts ofLeft) fun a => ?_
    refine .bindSame (evaluate simulating fits rights ofRight) fun b => ?_
    refine .bindSame (.ofExcept _) fun v => ?_
    exact .bind (assign targets.1 targets.2 (.literal v)) fun _ _ _ => .result (.literal v)
  | conjunction => exact connective simulating fits lefts rights ofLeft ofRight false
  | disjunction => exact connective simulating fits lefts rights ofLeft ofRight true
  | condition => exact selectBranch simulating fits lefts rights ofLeft ofRight steps
  | alternatives => exact .result (.branches (lefts.toExpr ofLeft) (rights.toExpr ofRight))

omit rights ofRight in
theorem applyModifier (m : Modifier) (spares : m.changes → how.Spares l)
    (steps : Simulates how loan (Expr.Simplifies how lending) (l.step eval) (l'.step eval')) :
    Simulates how loan (Expr.Simplifies how lending)
      (m.applyWith eval left (left.stepWith (l.step eval)))
      (m.applyWith eval' left' (left'.stepWith (l'.step eval'))) := by
  unfold Modifier.applyWith
  cases action : m.action with
  | transform rule =>
    refine .bindSame (evaluate simulating fits lefts ofLeft) fun v => ?_
    cases v with
    | none => exact .result (.literal none)
    | some a =>
      refine .bindSame (.ofExcept _) fun v => ?_
      exact .result (.literal v)
  | increase amount =>
    have spares := spares (by rw [Modifier.changes, action])
    refine .bind (target lefts spares ofLeft) fun t t' targets => ?_
    refine .bindSame (evaluate simulating fits lefts ofLeft) fun v => ?_
    cases v with
    | none => exact .result (.literal none)
    | some old =>
      refine .bindSame (.ofExcept _) fun new => ?_
      exact .bind (assign targets.1 targets.2 (.literal _)) fun _ _ _ => .result (.literal _)
  | definition => exact stepped lefts ofLeft steps

end Eval.Simulates

/-! ## Evaluations -/

namespace Eval.Simulates

variable {how : Simplification} {loan : Loan} {lending : Lending} {eval eval' : Evaluator}
  {e e' : Expr}

theorem evaluateAll (simulating : Simulating how eval eval') (fits : loan.Fits how lending)
    {es es' : List Expr} (length : es.length = es'.length)
    (each : ∀ i (left : i < es.length) (right : i < es'.length),
      Expr.Simplifies how lending es[i] es'[i]) :
    Simulates how loan Eq (es.mapM eval) (es'.mapM eval') := by
  have pairs : List.Forall₂ (fun e e' => Simulates how loan Eq (eval e) (eval' e')) es es' :=
    List.forall₂_iff_get.2 ⟨length, fun i left right =>
      simulating.simulates fits (each i left right)⟩
  have values := mapM pairs
  rwa [List.forall₂_eq_eq_eq] at values

theorem step (simulating : Simulating how eval eval') (fits : loan.Fits how lending)
    (same : Expr.Simplifies how lending e e') :
    Simulates how loan (Expr.Simplifies how lending) (e.step eval) (e'.step eval') := by
  induction same with
  | literal v => exact .result (.literal v)
  | cell known => exact .definition fits known
  | replaced lent given isCell =>
    rw [Expr.step_unwrapped, isCell]
    exact .definition_replaced fits lent given
  | binary spares stored lefts rights storedSteps _ steps =>
    rw [Expr.step_binary, Expr.step_binary]
    refine .bind (obtain_operand simulating fits lefts _) fun left left' ofLeft => ?_
    refine .bind (obtain_operand simulating fits rights _) fun right right' ofRight => ?_
    exact applyOperator simulating fits lefts rights ofLeft ofRight _ spares stored
      (fun binds => storedSteps binds True.intro) (steps fits)
  | unary spares operands steps =>
    refine .bind (obtain_operand simulating fits operands _) fun o o' of => ?_
    exact applyModifier simulating fits operands of _ spares (steps fits)
  | call known length each _ =>
    refine .bindSame (evaluateAll simulating fits length each) fun values => ?_
    refine .bindSame (callFunction simulating known values) fun v => ?_
    exact .result (.literal v)
  | branches whenTrue whenFalse _ _ => exact .result (.branches whenTrue whenFalse)
  | parens _ _ inner => exact inner fits
  | unwrapped _ _ _ inner => exact inner fits

theorem resolve (simulating : Simulating how eval eval') (fits : loan.Fits how lending)
    (same : Expr.Simplifies how lending e e') :
    Simulates how loan Eq (e.resolve eval) (e'.resolve eval') := by
  induction same with
  | literal v => exact .result rfl
  | cell known => exact .read simulating fits known
  | replaced lent given isCell =>
    rw [Expr.resolve_unwrapped, isCell]
    exact .read_replaced simulating fits lent given
  | @binary _ o _ _ _ _ spares stored lefts rights _ _ _ =>
    refine .bind (step simulating fits (.binary spares stored lefts rights)) fun r r' given => ?_
    cases o.binds with
    | true => exact .result rfl
    | false => exact simulating.simulates fits given
  | unary spares operands _ =>
    exact .bind (step simulating fits (.unary spares operands)) fun r r' given =>
      simulating.simulates fits given
  | call known length each _ =>
    exact .bind (step simulating fits (.call known length each)) fun r r' given =>
      simulating.simulates fits given
  | branches _ _ _ _ => exact .failure (.same _)
  | parens _ _ inner => exact inner fits
  | unwrapped _ _ _ inner => exact inner fits

/-- Only parentheses make no difference to operands that are not evaluated. -/
theorem contract {eval eval' : Evaluator} (simulating : Simulating .unwrapping eval eval')
    (fits : loan.Fits .unwrapping lending) (same : Expr.Simplifies .unwrapping lending e e') :
    Simulates .unwrapping loan (Expr.Simplifies .unwrapping lending) (e.contract eval)
      (e'.contract eval') := by
  induction same with
  | literal v => exact .result (.literal v)
  | cell known => exact .definition fits known
  | replaced lent _ _ => cases lent
  | binary spares stored lefts rights _ _ _ =>
    have steps := step simulating fits rights
    exact applyOperator simulating fits lefts rights (.frozen rfl) (.frozen rfl) _ spares stored
      (fun binds => step simulating True.intro (stored binds)) steps
  | unary spares operands _ =>
    exact applyModifier simulating fits operands (.frozen rfl) _ spares
      (step simulating fits operands)
  | @call _ f es es' known length each _ =>
    have values : es'.map Expr.frozenValue = es.map Expr.frozenValue := by
      refine List.ext_getElem (by simp [length]) fun i right left => ?_
      rw [List.getElem_map, List.getElem_map]
      exact (each i _ _).frozenValue_of_unwrapping
    show Simulates _ loan _ (f.call eval (es.map Expr.frozenValue) >>= _)
      (f.call eval' (es'.map Expr.frozenValue) >>= _)
    rw [values]
    refine .bindSame (callFunction simulating known _) fun v => ?_
    exact .result (.literal v)
  | branches whenTrue whenFalse _ _ => exact .result (.branches whenTrue whenFalse)
  | parens kept _ _ => exact absurd rfl kept
  | unwrapped _ _ _ inner => exact inner fits

end Eval.Simulates

/-- With every budget, evaluations of simplified expressions agree with those of the original
    ones. -/
theorem Expr.eval_simulating (how : Simplification) (budget : Nat) :
    Simulating how (Expr.eval budget) (Expr.eval budget) := by
  induction budget with
  | zero =>
    refine ⟨fun _ _ s s' _ => .inr .exhausted, fun v s => .inl rfl⟩
  | succ budget inductionHypothesis =>
    refine ⟨fun fits same => .resolve inductionHypothesis fits same, fun v s => .inr rfl⟩

end Abacus
