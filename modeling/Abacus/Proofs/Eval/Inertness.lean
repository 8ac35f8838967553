import Abacus.Grammar.Standard
import Abacus.Proofs.Eval.Borrowing
import Abacus.Proofs.Expr.Parts
import Abacus.Session.Run

/-!
# Steps of inert expressions

An inert expression is stepped where nothing may be evaluated.  Its step is that of a
dereferenced operand or of a binding, though, and these may evaluate an operand or
change a variable.  `Expr.forecast` says what a step does before it is taken, and from
it follows which inert expressions are harmless to step.
-/

namespace Abacus

open Eval

/-! ## Computations that leave things alone -/

namespace Eval

variable {α β : Type}

/-- Whether a computation evaluates nothing: its outcome is the same for every evaluator. -/
def Silent (F : Evaluator → Eval α) : Prop :=
  ∀ s, ∃ o, ∀ eval, (F eval).runOn s = some o

/-- Whether a computation evaluates nothing and leaves every definition unchanged. -/
def Idle (F : Evaluator → Eval Expr) : Prop :=
  ∀ s, ∃ r t, (∀ eval, (F eval).runOn s = some (r, t)) ∧ ∀ c, t.definition c = s.definition c

theorem Silent.result (a : α) : Silent fun _ => pure a := fun _ => ⟨_, fun _ => rfl⟩

theorem Silent.failure (cause : EvalError) : Silent fun _ => (throw cause : Eval α) :=
  fun _ => ⟨_, fun _ => rfl⟩

theorem Silent.modify (change : Store → Store) : Silent fun _ => (modify change : Eval Unit) :=
  fun _ => ⟨_, fun _ => rfl⟩

theorem Silent.ofExcept (r : Except EvalError α) : Silent fun _ => Eval.ofExcept r :=
  fun s => ⟨_, fun _ => runOn_ofExcept r s⟩

theorem Silent.bind {F : Evaluator → Eval α} {G : α → Evaluator → Eval β} (first : Silent F)
    (second : ∀ a, Silent (G a)) : Silent fun eval => F eval >>= fun a => G a eval := by
  intro s
  obtain ⟨⟨r, t⟩, ends⟩ := first s
  cases r with
  | error cause => exact ⟨_, fun eval => runOn_bind_error (ends eval) _⟩
  | ok a =>
    obtain ⟨o, ends'⟩ := second a t
    exact ⟨o, fun eval => (runOn_bind_ok (ends eval) _).trans (ends' eval)⟩

end Eval

/-! ## Forecasts -/

/-- What a step does, as far as it is known without any evaluation. -/
inductive Forecast where
  /-- Something is evaluated. -/
  | evaluation
  /-- The step fails, and has no effect. -/
  | refusal
  /-- The step gives this expression and has no effect. -/
  | result (e : Expr)
  /-- The step gives what this cell stands for and has no effect. -/
  | definition (c : Cell)
  /-- The step binds a variable and gives this expression. -/
  | binding (e : Expr)

namespace Forecast

/-- Whether a step does what its forecast says.  Where something is evaluated there is no
    outcome without an evaluator, and a binding changes some definition in some store. -/
def Holds (F : Evaluator → Eval Expr) : Forecast → Prop
  | .evaluation => (F fun _ => exhausted).runOn {} = none
  | .refusal => ∀ s, ∃ cause, ∀ eval, (F eval).runOn s = some (.error cause, s)
  | .result e => ∀ s, ∃ t, (∀ eval, (F eval).runOn s = some (.ok e, t)) ∧
      ∀ c, t.definition c = s.definition c
  | .definition c => ∀ s eval, (F eval).runOn s = some (.ok (s.definition c), s)
  | .binding e => (∀ s, ∃ t, ∀ eval, (F eval).runOn s = some (.ok e, t)) ∧
      ∃ s t c, (∀ eval, (F eval).runOn s = some (.ok e, t)) ∧ t.definition c ≠ s.definition c

def isSilent : Forecast → Bool
  | .evaluation => false
  | .refusal | .result _ | .definition _ | .binding _ => true

def isIdle : Forecast → Bool
  | .evaluation | .binding _ => false
  | .refusal | .result _ | .definition _ => true

variable {F : Evaluator → Eval Expr} {f : Forecast}

theorem Holds.silent_iff (holds : f.Holds F) : Silent F ↔ f.isSilent := by
  cases f with
  | evaluation =>
    refine iff_of_false (fun silent => ?_) Bool.false_ne_true
    obtain ⟨o, ends⟩ := silent {}
    cases holds.symm.trans (ends _)
  | refusal =>
    refine iff_of_true (fun s => ?_) rfl
    obtain ⟨cause, fails⟩ := holds s
    exact ⟨_, fails⟩
  | result e =>
    refine iff_of_true (fun s => ?_) rfl
    obtain ⟨t, ends, _⟩ := holds s
    exact ⟨_, ends⟩
  | definition c => exact iff_of_true (fun s => ⟨_, holds s⟩) rfl
  | binding e =>
    refine iff_of_true (fun s => ?_) rfl
    obtain ⟨t, ends⟩ := holds.1 s
    exact ⟨_, ends⟩

theorem Holds.silent_bind_iff (holds : f.Holds F) {k : Expr → Eval Expr}
    (silent : ∀ d, Silent fun _ => k d) :
    Silent (fun eval => F eval >>= k) ↔ f.isSilent := by
  constructor
  · intro whole
    cases f with
    | evaluation =>
      obtain ⟨o, ends⟩ := whole {}
      cases (runOn_bind_eq_none.2 (.inl holds)).symm.trans (ends _)
    | refusal | result _ | definition _ | binding _ => rfl
  · intro evaluatesNothing
    exact .bind (holds.silent_iff.2 evaluatesNothing) silent

theorem Holds.idle_iff (holds : f.Holds F) : Idle F ↔ f.isIdle := by
  cases f with
  | evaluation =>
    refine iff_of_false (fun idle => ?_) Bool.false_ne_true
    obtain ⟨r, t, ends, _⟩ := idle {}
    cases holds.symm.trans (ends _)
  | refusal =>
    refine iff_of_true (fun s => ?_) rfl
    obtain ⟨cause, fails⟩ := holds s
    exact ⟨_, s, fails, fun _ => rfl⟩
  | result e =>
    refine iff_of_true (fun s => ?_) rfl
    obtain ⟨t, ends, same⟩ := holds s
    exact ⟨_, t, ends, same⟩
  | definition c => exact iff_of_true (fun s => ⟨_, s, holds s, fun _ => rfl⟩) rfl
  | binding e =>
    refine iff_of_false (fun idle => ?_) Bool.false_ne_true
    obtain ⟨s, t, c, ends, changed⟩ := holds.2
    obtain ⟨r, t', ends', same⟩ := idle s
    cases (ends fun _ => exhausted).symm.trans (ends' fun _ => exhausted)
    exact changed (same c)

end Forecast

namespace Expr

def assignable? : Expr → Option Cell
  | .cell c => if c.kind = .variable then some c else none
  | .parens inner => inner.assignable?
  | _ => none

/-- What a binding of a variable does, by the step of the inert expression that it is bound to. -/
def forecastBinding (target : Expr) (c : Cell) : Forecast → Forecast
  | .evaluation => .evaluation
  | .refusal => .refusal
  -- A variable that is bound to its own definition keeps it.
  | .definition d => if d.id = c.id then .result target else .binding target
  | .result _ | .binding _ => .binding target

def forecast : Expr → Forecast
  | .literal v => .result (.literal v)
  | .branches a b => .result (.branches a b)
  | .cell c => .definition c
  | .parens inner => inner.forecast
  | .call f arguments => if arguments.isEmpty && f.arity ≠ 0 then .refusal else .evaluation
  | .unary m operand =>
    match m.action with
    | .transform _ => .evaluation
    | .increase _ => if operand.isVariable then .evaluation else .refusal
    | .definition => operand.forecast
  | .binary o left right =>
    match o.action with
    | .alternatives => .result (.branches left right)
    | .bind =>
      match left.assignable? with
      | none => .refusal
      | some c => if right.isInert then forecastBinding left c right.forecast else .binding left
    | _ => .evaluation

theorem isVariable_eq : ∀ e : Expr, e.isVariable = e.assignable?.isSome
  | .cell c => by by_cases kind : c.kind = .variable <;> simp [isVariable, assignable?, kind]
  | .parens inner => isVariable_eq inner
  | .literal _ | .binary _ _ _ | .unary _ _ | .call _ _ | .branches _ _ => rfl

theorem assign_of_assignable? : ∀ {e : Expr} {c : Cell}, e.assignable? = some c → ∀ d : Expr,
    e.assign d = modify fun s => s.define c d
  | .cell c, d, found, definition => by
    rw [assignable?] at found
    split at found
    · cases found
      exact if_pos ‹_›
    · cases found
  | .parens inner, _, found, definition =>
    assign_of_assignable? (e := inner) found definition

section

variable {o : Operator} {left right : Expr}

theorem step_of_bind_refused (binds : o.action = .bind) (fixed : left.assignable? = none)
    (eval : Evaluator) :
    (Expr.binary o left right).step eval = throw (.notAssignable left.text) := by
  have refused : left.isVariable = false := by rw [isVariable_eq, fixed]; rfl
  simp only [step, binds, Operator.Action.strictness, Strictness.evaluatesLeft,
    Strictness.evaluatesRight, Operand.obtain, Operator.applyWith, pure_bind, Operand.target,
    refused, Bool.false_eq_true, if_false]
  rfl

theorem step_of_bind (binds : o.action = .bind) {c : Cell} (found : left.assignable? = some c)
    (eval : Evaluator) :
    (Expr.binary o left right).step eval =
      if right.isInert then do
        let d ← right.step eval
        modify fun s => s.define c d
        return left
      else do
        modify fun s => s.define c right
        return left := by
  have assignable : left.isVariable = true := by rw [isVariable_eq, found]; rfl
  simp only [step, binds, Operator.Action.strictness, Strictness.evaluatesLeft,
    Strictness.evaluatesRight, Operand.obtain, Operator.applyWith, pure_bind, Operand.target,
    assignable, Bool.false_eq_true, if_false, if_true, Eval.ofExcept, Operand.isInert,
    Operand.stepWith, Operand.toExpr, assign_of_assignable? found]

end

end Expr

namespace Forecast

theorem exists_definition_ne (c : Cell) (e : Expr) : ∃ s : Store, s.definition c ≠ e := by
  by_cases void : e = .void
  · refine ⟨Store.define {} c (.literal (some (.integer 0))), ?_⟩
    rw [Store.definition_define, if_pos rfl, void]
    exact fun same => by cases same
  · exact ⟨{}, Ne.symm void⟩

theorem Holds.bind {F : Evaluator → Eval Expr} {f : Forecast} (holds : f.Holds F) (target : Expr)
    (c : Cell) : (Expr.forecastBinding target c f).Holds fun eval => do
      let d ← F eval
      modify fun s => s.define c d
      return target := by
  have binds {s t : Store} {eval : Evaluator} {d : Expr}
      (ends : (F eval).runOn s = some (.ok d, t)) :
      (do let d ← F eval; modify fun s => s.define c d; return target : Eval Expr).runOn s =
        some (.ok target, t.define c d) := by
    rw [runOn_bind_ok ends]
    rfl
  have stands (t : Store) (d : Expr) : (t.define c d).definition c = d :=
    (Store.definition_define ..).trans (if_pos rfl)
  have changes {d : Expr} (ends : ∀ s, ∃ t, ∀ eval, (F eval).runOn s = some (.ok d, t)) :
      (Forecast.binding target).Holds fun eval => do
        let d ← F eval
        modify fun s => s.define c d
        return target := by
    refine ⟨fun s => ?_, ?_⟩
    · obtain ⟨t, ends⟩ := ends s
      exact ⟨_, fun eval => binds (ends eval)⟩
    · obtain ⟨s, other⟩ := exists_definition_ne c d
      obtain ⟨t, ends⟩ := ends s
      exact ⟨s, _, c, fun eval => binds (ends eval), by rw [stands]; exact other.symm⟩
  cases f with
  | evaluation => exact runOn_bind_eq_none.2 (.inl holds)
  | refusal =>
    intro s
    obtain ⟨cause, fails⟩ := holds s
    exact ⟨cause, fun eval => runOn_bind_error (fails eval) _⟩
  | result d =>
    exact changes fun s => (holds s).imp fun t ends => ends.1
  | binding d => exact changes holds.1
  | definition d =>
    unfold Expr.forecastBinding
    dsimp only
    split
    · rename_i same
      refine fun s => ⟨_, fun eval => binds (holds s eval), fun e => ?_⟩
      rw [Store.definition_define]
      split
      · rename_i here
        unfold Store.definition
        rw [same, here]
      · rfl
    · rename_i other
      refine ⟨fun s => ⟨_, fun eval => binds (holds s eval)⟩, ?_⟩
      let s := Store.define {} c (.literal (some (.integer 0)))
      refine ⟨s, _, c, fun eval => binds (holds s eval), ?_⟩
      have void : s.definition d = .void :=
        (Store.definition_define ..).trans (if_neg (Ne.symm other))
      rw [stands, stands, void]
      exact fun same => by cases same

end Forecast

namespace Expr

theorem call_forecast_holds (f : Function) (arguments : List Expr) :
    (Expr.call f arguments).forecast.Holds fun eval => (Expr.call f arguments).step eval := by
  cases arguments with
  | cons e rest => rfl
  | nil =>
    have stepped (eval : Evaluator) : (Expr.call f []).step eval =
        (do return .literal (← f.call eval [])) := rfl
    simp only [stepped]
    by_cases parameters : f.arity = 0
    · have forecasts : (Expr.call f []).forecast = .evaluation := by simp [forecast, parameters]
      rw [forecasts]
      cases f with
      | builtin b => cases b <;> cases parameters
      | user u =>
        have room : ¬ callLimit ≤ ({} : Store).callDepth u := Nat.not_succ_le_zero 127
        have count : ([] : List Value).length = (Function.user u).arity := parameters.symm
        refine runOn_bind_eq_none.2 (.inl ?_)
        rw [Function.call_user count, runOn_calling, if_neg room]
        rfl
    · have forecasts : (Expr.call f []).forecast = .refusal := by simp [forecast, parameters]
      rw [forecasts]
      obtain ⟨cause, fails⟩ : ∃ cause, ∀ eval, f.call eval [] = throw cause :=
        ⟨_, fun _ => Function.call_of_ne (Ne.symm parameters)⟩
      simp only [fails]
      exact fun s => ⟨cause, fun _ => rfl⟩

theorem forecast_holds : ∀ e : Expr, e.forecast.Holds fun eval => e.step eval
  | .literal _ | .branches _ _ => fun s => ⟨s, fun _ => rfl, fun _ => rfl⟩
  | .cell _ => fun _ _ => rfl
  | .parens inner => inner.forecast_holds
  | .call f arguments => call_forecast_holds f arguments
  | .unary m operand => by
    have inner := operand.forecast_holds
    unfold forecast
    simp only [step]
    cases action : m.action with
    | transform rule => rfl
    | increase amount =>
      simp only [Operand.obtain, Modifier.Action.strictness, Strictness.evaluatesLeft,
        Bool.false_eq_true, if_false, pure_bind, Modifier.applyWith, action, Operand.target]
      cases operand.isVariable with
      | true => rfl
      | false => exact fun s => ⟨_, fun eval => rfl⟩
    | definition =>
      simp only [Operand.obtain, Modifier.Action.strictness, Strictness.evaluatesLeft,
        Bool.false_eq_true, if_false, pure_bind, Modifier.applyWith, action, Operand.stepWith]
      exact inner
  | .binary o left right => by
    have inner := right.forecast_holds
    unfold forecast
    cases action : o.action with
    | combine _ | assign | update _ | conjunction | disjunction | condition =>
      -- These actions evaluate an operand first, which no forecast tells anything about.
      simp only [step, action]
      rfl
    | alternatives =>
      simp only [step, action, Operator.applyWith]
      exact fun s => ⟨s, fun _ => rfl, fun _ => rfl⟩
    | bind =>
      cases found : left.assignable? with
      | none =>
        simp only [step_of_bind_refused action found]
        exact fun s => ⟨_, fun eval => rfl⟩
      | some c =>
        simp only [step_of_bind action found]
        split
        · exact inner.bind left c
        · have alone : (Forecast.result right).Holds fun _ => pure right :=
            fun s => ⟨s, fun _ => rfl, fun _ => rfl⟩
          exact alone.bind left c

/-! ## Operands that may not be evaluated -/

/-- What a step of an expression does that may not be evaluated: only an inert one is stepped. -/
def frozenForecast (e : Expr) : Forecast := if e.isInert then e.forecast else .result e

theorem frozenForecast_holds (e : Expr) :
    e.frozenForecast.Holds fun eval => Operand.step eval (.frozen e) := by
  simp only [frozenForecast, Operand.step, Operand.stepWith, Operand.toExpr]
  cases e.isInert with
  | true => exact forecast_holds e
  | false => exact fun s => ⟨s, fun _ => rfl, fun _ => rfl⟩

theorem isSilent_frozenForecast (e : Expr) :
    e.frozenForecast.isSilent = (!e.isInert || e.forecast.isSilent) := by
  unfold frozenForecast
  cases e.isInert <;> rfl

def contractsSilently : Expr → Bool
  | .parens inner => inner.contractsSilently
  | .unary m operand =>
    match m.action with
    | .definition => operand.frozenForecast.isSilent
    | .transform _ | .increase _ => true
  | .binary o left right =>
    match o.action with
    | .bind => !left.isVariable || right.frozenForecast.isSilent
    | .condition => (left.frozenValue.bind Number.truth?).isNone || right.frozenForecast.isSilent
    | _ => true
  | .literal _ | .cell _ | .call _ _ | .branches _ _ => true

theorem silent_assign : ∀ target definition : Expr, Silent fun _ => target.assign definition
  | .cell c, definition => by
    unfold assign
    split
    · exact .modify _
    · exact .failure _
  | .parens inner, definition => silent_assign inner definition
  | .literal _, _ | .binary _ _ _, _ | .unary _ _, _ | .call _ _, _ | .branches _ _, _ => .failure _

theorem silent_connective (absorbing : Bool) (left right : Expr) :
    Silent fun eval => connective eval absorbing (.frozen left) (.frozen right) := by
  refine .bind (.result left.frozenValue) fun v => ?_
  cases v.bind Number.truth? with
  | none => exact .result _
  | some t =>
    by_cases absorbs : t = absorbing
    · simp only [absorbs, if_true]
      exact .result _
    · simp only [absorbs, if_false]
      exact .bind (.result right.frozenValue) fun _ => .result _

theorem silent_selectBranch_iff {left right : Expr} :
    Silent (fun eval => selectBranch eval (.frozen left) (.frozen right)
        (Operand.step eval (.frozen right))) ↔
      (left.frozenValue.bind Number.truth?).isNone || right.frozenForecast.isSilent := by
  have handed := frozenForecast_holds right
  simp only [selectBranch, Operand.evaluate, pure_bind]
  cases left.frozenValue.bind Number.truth? with
  | none => exact iff_of_true (.result _) rfl
  | some choice =>
    by_cases inert : right.isInert
    · simp only [branchesOf, Operand.isInert, inert, if_true, bind_assoc, Option.isNone_some,
        Bool.false_or]
      refine handed.silent_bind_iff fun d => ?_
      cases d <;> exact .result _
    · simp only [branchesOf, Operand.isInert, inert]
      refine iff_of_true (.result _) ?_
      simp [isSilent_frozenForecast, inert]

theorem silent_contract_bind_iff {o : Operator} (binds : o.action = .bind) (left right : Expr) :
    Silent (fun eval => (Expr.binary o left right).contract eval) ↔
      !left.isVariable || right.frozenForecast.isSilent := by
  have handed := frozenForecast_holds right
  simp only [contract, Operator.apply, Operator.applyWith, binds, Operand.target]
  cases left.isVariable with
  | false => exact iff_of_true (.failure _) rfl
  | true =>
    simp only [if_true, Eval.ofExcept, pure_bind, Operand.isInert, Bool.not_true, Bool.false_or]
    cases inert : right.isInert with
    | true =>
      simp only [if_true]
      exact handed.silent_bind_iff fun d => .bind (silent_assign _ _) fun _ => .result _
    | false =>
      refine iff_of_true (.bind (silent_assign _ _) fun _ => .result _) ?_
      rw [isSilent_frozenForecast, inert]
      rfl

theorem contract_unwrapped (eval : Evaluator) : ∀ e : Expr,
    e.contract eval = e.unwrapped.contract eval
  | .parens inner => contract_unwrapped eval inner
  | .literal _ | .cell _ | .binary _ _ _ | .unary _ _ | .call _ _ | .branches _ _ => rfl

theorem silent_contract_iff : ∀ e : Expr, (∀ f arguments, e.unwrapped ≠ .call f arguments) →
    (Silent (fun eval => e.contract eval) ↔ e.contractsSilently)
  | .literal _, _ | .branches _ _, _ => iff_of_true (.result _) rfl
  | .cell _, _ => iff_of_true (fun s => ⟨_, fun _ => rfl⟩) rfl
  | .parens inner, notCall => silent_contract_iff inner notCall
  | .call f arguments, notCall => absurd rfl (notCall f arguments)
  | .unary m operand, _ => by
    have handed := frozenForecast_holds operand
    simp only [contract, Modifier.apply, Modifier.applyWith, contractsSilently]
    cases action : m.action with
    | definition => exact handed.silent_iff
    | transform rule =>
      refine iff_of_true (.bind (.result _) fun v => ?_) rfl
      cases v with
      | none => exact .result _
      | some a => exact .bind (.ofExcept _) fun _ => .result _
    | increase amount =>
      refine iff_of_true (.bind (.ofExcept _) fun target => .bind (.result _) fun v => ?_) rfl
      cases v with
      | none => exact .result _
      | some old =>
        exact .bind (.ofExcept _) fun new => .bind (silent_assign _ _) fun _ => .result _
  | .binary o left right, _ => by
    cases action : o.action with
    | bind =>
      simp only [contractsSilently, action]
      exact silent_contract_bind_iff action left right
    | condition =>
      simp only [contract, Operator.apply, Operator.applyWith, contractsSilently, action]
      exact silent_selectBranch_iff
    | combine rule =>
      simp only [contract, Operator.apply, Operator.applyWith, contractsSilently, action]
      exact iff_of_true (.bind (.result _) fun _ => .bind (.result _) fun _ =>
        .bind (.ofExcept _) fun _ => .result _) True.intro
    | assign =>
      simp only [contract, Operator.apply, Operator.applyWith, contractsSilently, action]
      exact iff_of_true (.bind (.ofExcept _) fun _ => .bind (.result _) fun _ =>
        .bind (silent_assign _ _) fun _ => .result _) True.intro
    | update rule =>
      simp only [contract, Operator.apply, Operator.applyWith, contractsSilently, action]
      exact iff_of_true (.bind (.ofExcept _) fun _ => .bind (.result _) fun _ =>
        .bind (.result _) fun _ => .bind (.ofExcept _) fun _ =>
          .bind (silent_assign _ _) fun _ => .result _) True.intro
    | conjunction | disjunction =>
      simp only [contract, Operator.apply, Operator.applyWith, contractsSilently, action]
      exact iff_of_true (silent_connective _ _ _) True.intro
    | alternatives =>
      simp only [contract, Operator.apply, Operator.applyWith, contractsSilently, action]
      exact iff_of_true (.result _) True.intro

theorem contract_call_congr (f : Function) (arguments : List Expr) {s : Store}
    {eval eval' : Evaluator} (agree : ∀ u, eval (s.body u) = eval' (s.body u)) :
    ((Expr.call f arguments).contract eval).runOn s =
      ((Expr.call f arguments).contract eval').runOn s := by
  have called : (f.call eval (arguments.map frozenValue)).runOn s =
      (f.call eval' (arguments.map frozenValue)).runOn s := by
    by_cases count : (arguments.map frozenValue).length = f.arity
    · cases f with
      | builtin b => rw [Function.call_builtin count, Function.call_builtin count]
      | user u =>
        have body (values : List Value) : (enterCall s u values).body u = s.body u :=
          body_enterCall u
        rw [Function.call_user count, Function.call_user count, runOn_calling, runOn_calling,
          runOn_bind_ok (runOn_get _), runOn_bind_ok (runOn_get _), body, agree]
    · rw [Function.call_of_ne count, Function.call_of_ne count]
  simp only [contract, runOn_bind, called]

/-! ## Main result -/

/-- A step evaluates nothing and leaves every definition unchanged exactly if this is what is
    forecast of it, which holds of an inert expression unless it leads to a binding of a variable
    or dereferences something that has to be evaluated.  On the same condition an operand that may
    not be evaluated is stepped without any evaluation, and a contraction evaluates nothing but the
    body of a function that it calls. -/
theorem inert_step_idles_iff (e : Expr) :
    (Idle (fun eval => e.step eval) ↔ e.forecast.isIdle) ∧
    (Silent (fun eval => Operand.step eval (.frozen e)) ↔ (e.isInert → e.forecast.isSilent)) ∧
    ((∀ f arguments, e.unwrapped ≠ .call f arguments) →
      (Silent (fun eval => e.contract eval) ↔ e.contractsSilently)) ∧
    ∀ f arguments, e.unwrapped = .call f arguments →
      ∀ s eval eval', (∀ u, eval (s.body u) = eval' (s.body u)) →
        (e.contract eval).runOn s = (e.contract eval').runOn s := by
  refine ⟨(forecast_holds e).idle_iff, ?_, silent_contract_iff e, ?_⟩
  · rw [(frozenForecast_holds e).silent_iff, isSilent_frozenForecast]
    cases e.isInert <;> simp
  · intro f arguments isCall s eval eval' agree
    rw [contract_unwrapped eval, contract_unwrapped eval', isCall]
    exact contract_call_congr f arguments agree

/-- The inert `$(x++)` increases `x` when it is stepped, also where it may not be evaluated, and
    the inert `x := 5` binds `x`. -/
theorem inert_increase_changes_variable :
    let x : Cell := ⟨4, "x", .variable⟩
    let dereference : Modifier := ⟨"$", .before, .definition⟩
    let increase : Expr :=
      .unary dereference (.parens (.unary ⟨"++", .after, .increase 1⟩ (.cell x)))
    let binding : Expr := .binary ⟨":=", .bind⟩ (.cell x) (.literal (some (.integer 5)))
    (increase.isInert ∧ ¬ Idle (fun eval => increase.step eval)) ∧
    (binding.isInert ∧ ¬ Idle (fun eval => binding.step eval)) ∧
    ¬ Silent (fun eval => Operand.step eval (.frozen increase)) ∧
    ¬ Silent (fun eval => (Expr.unary dereference increase).contract eval) ∧
    (do
      let (_, s) ← (Session.start Grammar.standard).run 8 "x = 1"
      let (e, s) ← (s.parse "$(x++)").toOption
      let (_, s) ← s.evaluate ((← e).step (Expr.eval 8))
      let (answer, _) ← s.run 8 "x"
      return answer.toOption.map Reply.shown) = some (some "2\n") := by
  intro x dereference increase binding
  refine ⟨⟨rfl, ?_⟩, ⟨rfl, ?_⟩, ?_, ?_, by decide +kernel⟩
  · rw [(forecast_holds increase).idle_iff]
    exact Bool.false_ne_true
  · rw [(forecast_holds binding).idle_iff]
    exact Bool.false_ne_true
  · rw [(frozenForecast_holds increase).silent_iff]
    exact Bool.false_ne_true
  · rw [silent_contract_iff _ fun _ _ same => by cases same]
    exact Bool.false_ne_true

end Expr

end Abacus
