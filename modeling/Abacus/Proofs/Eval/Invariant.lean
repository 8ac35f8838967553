import Abacus.Proofs.Eval.Outcome

/-!
# Invariants of evaluation

An evaluation evaluates other expressions only by asking the evaluator it is
given: for a part of the expression at hand or what a step of it gives, for the
definition of a cell during a counted read, or for the body of a function during
a counted call.  `Asking` says so once, together with what is known of the
results, and what every evaluation keeps follows by induction on it.
-/

namespace Abacus

open Eval

structure Invariant where
  /-- A property of the stores. -/
  holds : Store → Prop
  /-- A property of the expressions that are evaluated. -/
  admits : Expr → Prop
  /-- How a later store is related to an earlier one. -/
  relates : Store → Store → Prop

namespace Invariant

variable {α β : Type}

def trivial : Invariant := ⟨fun _ => True, fun _ => True, fun _ _ => True⟩

/-- The conditions under which an invariant is kept. -/
structure Kept (I : Invariant) : Prop where
  refl (s : Store) : I.relates s s
  trans {s t u : Store} : I.relates s t → I.relates t u → I.relates s u
  literal (v : Value) : I.admits (.literal v)
  branches {a b : Expr} : I.admits (.branches a b) ↔ I.admits a ∧ I.admits b
  parens {e : Expr} : I.admits (.parens e) → I.admits e
  binary {o : Operator} {a b : Expr} : I.admits (.binary o a b) → I.admits a ∧ I.admits b
  unary {m : Modifier} {e : Expr} : I.admits (.unary m e) → I.admits e
  arguments {f : Function} {es : List Expr} : I.admits (.call f es) → ∀ e ∈ es, I.admits e
  definition {s : Store} {c : Cell} : I.holds s → I.admits (.cell c) → I.admits (s.definition c)
  define {s : Store} {c : Cell} {e : Expr} : I.holds s → I.admits (.cell c) →
    c.kind = .variable → I.admits e → I.holds (s.define c e) ∧ I.relates s (s.define c e)
  reading {s : Store} {c : Cell} : I.holds s → I.admits (.cell c) → s.readDepth c < readLimit →
    I.holds (s.enterRead c) ∧ ∀ t, I.holds t → I.relates (s.enterRead c) t →
      I.holds (t.leaveRead c) ∧ I.relates s (t.leaveRead c)
  calling {s : Store} {u : UserFunction} {es : List Expr} (arguments : List Value) :
    I.holds s → I.admits (.call (.user u) es) → s.callDepth u < callLimit →
    I.holds (enterCall s u arguments) ∧ I.admits ((enterCall s u arguments).body u) ∧
      ∀ t, I.holds t → I.relates (enterCall s u arguments) t →
        I.holds (leaveCall s u t) ∧ I.relates s (leaveCall s u t)

theorem trivial_kept : trivial.Kept := by
  constructor <;> simp [trivial]

/-- A computation keeps an invariant, and its results satisfy `P`. -/
def Keeps (I : Invariant) (P : α → Prop) (m : Eval α) : Prop :=
  ∀ s r t, I.holds s → m.runOn s = some (r, t) →
    I.holds t ∧ I.relates s t ∧ ∀ a, r = .ok a → P a

def KeptBy (I : Invariant) (eval : Evaluator) : Prop :=
  ∀ e, I.admits e → I.Keeps (fun _ => True) (eval e)

/-! ## Asking an evaluator -/

/-- A computation evaluates expressions only by asking the evaluator it is given,
    and where the invariant holds its results satisfy `P`.  The expressions at hand
    that it asks for are among those that it `may` ask for. -/
inductive Asking (I : Invariant) (may : Expr → Prop) :
    {α : Type} → (α → Prop) → (Evaluator → Eval α) → Prop where
  | result {α : Type} {P : α → Prop} {a : α} : P a → Asking I may P fun _ => pure a
  | failure {α : Type} {P : α → Prop} (cause : EvalError) : Asking I may P fun _ => throw cause
  | definition {P : Expr → Prop} {c : Cell} : I.admits (.cell c) →
      (∀ s, I.holds s → P (s.definition c)) → Asking I may P fun _ => Eval.definition c
  | define {c : Cell} {e : Expr} : I.admits (.cell c) → c.kind = .variable → I.admits e →
      Asking I may (fun _ => True) fun _ => modify fun s => s.define c e
  | ask {e : Expr} : I.admits e → may e → Asking I may (fun _ => True) fun eval => eval e
  | read {c : Cell} : I.admits (.cell c) →
      Asking I may (fun _ => True) fun eval => reading c do eval (← Eval.definition c)
  | call {u : UserFunction} {es : List Expr} (arguments : List Value) :
      I.admits (.call (.user u) es) →
      Asking I may (fun _ => True) fun eval => calling u arguments do eval ((← get).body u)
  | bind {α β : Type} {P : α → Prop} {Q : β → Prop} {F : Evaluator → Eval α}
      {G : α → Evaluator → Eval β} :
      Asking I may P F → (∀ a, P a → Asking I may Q (G a)) →
      Asking I may Q fun eval => F eval >>= fun a => G a eval

variable {I : Invariant} {may : Expr → Prop}

theorem Asking.keeps (kept : I.Kept) {eval : Evaluator} (evaluator : I.KeptBy eval)
    {P : α → Prop} {F : Evaluator → Eval α} (asking : Asking I may P F) : I.Keeps P (F eval) := by
  induction asking with
  | result good =>
    intro s r t before ends
    cases ends
    exact ⟨before, kept.refl s, fun _ ok => by cases ok; exact good⟩
  | failure cause =>
    intro s r t before ends
    cases ends
    exact ⟨before, kept.refl s, fun _ ok => nomatch ok⟩
  | definition _ good =>
    intro s r t before ends
    cases ends
    exact ⟨before, kept.refl s, fun _ ok => by cases ok; exact good s before⟩
  | define target isVariable admitted =>
    intro s r t before ends
    cases ends
    obtain ⟨after, related⟩ := kept.define before target isVariable admitted
    exact ⟨after, related, fun _ _ => True.intro⟩
  | ask admitted _ => exact evaluator _ admitted
  | @read c admitted =>
    intro s r t before ends
    rw [runOn_reading] at ends
    split at ends
    · cases ends
      exact ⟨before, kept.refl s, fun _ _ => True.intro⟩
    · -- Entering keeps the invariant, evaluating keeps it by assumption, and so does leaving.
      rename_i room
      obtain ⟨inside, leave⟩ := kept.reading before admitted (Nat.lt_of_not_le room)
      obtain ⟨⟨_, t⟩, runs, equal⟩ := Option.map_eq_some_iff.1 ends
      cases equal
      rw [runOn_bind_ok (runOn_definition c _)] at runs
      obtain ⟨after, related, _⟩ := evaluator _ (kept.definition inside admitted) _ _ _ inside runs
      obtain ⟨outside, related⟩ := leave _ after related
      exact ⟨outside, related, fun _ _ => True.intro⟩
  | @call u es arguments admitted =>
    intro s r t before ends
    rw [runOn_calling] at ends
    split at ends
    · cases ends
      exact ⟨before, kept.refl s, fun _ _ => True.intro⟩
    · rename_i room
      obtain ⟨inside, body, leave⟩ :=
        kept.calling arguments before admitted (Nat.lt_of_not_le room)
      obtain ⟨⟨_, t⟩, runs, equal⟩ := Option.map_eq_some_iff.1 ends
      cases equal
      rw [runOn_bind_ok (runOn_get _)] at runs
      obtain ⟨after, related, _⟩ := evaluator _ body _ _ _ inside runs
      obtain ⟨outside, related⟩ := leave _ after related
      exact ⟨outside, related, fun _ _ => True.intro⟩
  | bind _ _ first second =>
    intro s r t before ends
    rcases runOn_bind_eq_some.1 ends with ⟨a, u, left, right⟩ | ⟨cause, failed, rfl⟩
    · obtain ⟨between, toBetween, good⟩ := first s _ u before left
      obtain ⟨after, toAfter, result⟩ := second a (good a rfl) u r t between right
      exact ⟨after, kept.trans toBetween toAfter, result⟩
    · obtain ⟨after, related, _⟩ := first s _ t before failed
      exact ⟨after, related, fun _ ok => nomatch ok⟩

theorem Asking.ofExcept {P : α → Prop} {r : Except EvalError α} (good : ∀ a, r = .ok a → P a) :
    Asking I may P fun _ => Eval.ofExcept r := by
  cases r with
  | ok a => exact .result (good a rfl)
  | error cause => exact .failure cause

theorem Asking.weaken {P Q : α → Prop} {F : Evaluator → Eval α} (asking : Asking I may P F)
    (imp : ∀ a, P a → Q a) : Asking I may Q F := by
  have weaker : Asking I may Q fun eval => F eval >>= pure :=
    .bind asking fun a good => .result (imp a good)
  simpa only [bind_pure] using weaker

end Invariant

/-! ## What a step asks for and gives -/

/-- Whether an expression carries out an action, seen through parentheses. -/
def Expr.isAction : Expr → Bool
  | .binary _ _ _ | .unary _ _ | .call _ _ => true
  | .parens inner => inner.isAction
  | .literal _ | .cell _ | .branches _ _ => false

/-- The parts of an expression that a step of it may evaluate. -/
inductive Expr.Part : Expr → Expr → Prop where
  | left (o : Operator) (a b : Expr) : Part a (.binary o a b)
  | right (o : Operator) (a b : Expr) : Part b (.binary o a b)
  | operand (m : Modifier) (e : Expr) : Part e (.unary m e)
  | argument (f : Function) {e : Expr} {es : List Expr} : e ∈ es → Part e (.call f es)
  | parens {x e : Expr} : Part x e → Part x (.parens e)
  | underRight {x b : Expr} (o : Operator) (a : Expr) : Part x b → Part x (.binary o a b)
  | underOperand {x e : Expr} (m : Modifier) : Part x e → Part x (.unary m e)

/-- An operand as it is prepared from an expression, evaluated `now` or not. -/
inductive Operand.Of (e : Expr) : (now : Bool) → Operand → Prop where
  | value (v : Value) : Of e true (.value v)
  | expr : Of e false (.expr e)

/-- What a step of an expression gives where an invariant holds. -/
inductive Invariant.Gives (I : Invariant) : Expr → Expr → Prop where
  | literal (e : Expr) (v : Value) : Gives I e (.literal v)
  | branches (a b : Expr) : Gives I (.branches a b) (.branches a b)
  | definition {s : Store} {c : Cell} : I.holds s → Gives I (.cell c) (s.definition c)
  | parens {e r : Expr} : Gives I e r → Gives I (.parens e) r
  /-- The target of a binding, which is not evaluated. -/
  | bound {o : Operator} (a b : Expr) : o.binds → Gives I (.binary o a b) a
  /-- A condition selects its right operand or what an inert one gives. -/
  | selected {o : Operator} (a b : Expr) : o.action = .condition → Gives I (.binary o a b) b
  | stepped {o : Operator} {a b r : Expr} : o.action = .condition → b.isInert → Gives I b r →
      Gives I (.binary o a b) r
  | whenTrue {o : Operator} {a b t f : Expr} : o.action = .condition → b.isInert →
      Gives I b (.branches t f) → Gives I (.binary o a b) t
  | whenFalse {o : Operator} {a b t f : Expr} : o.action = .condition → b.isInert →
      Gives I b (.branches t f) → Gives I (.binary o a b) f
  | alternatives (o : Operator) (a b : Expr) : Gives I (.binary o a b) (.branches a b)
  | operand {m : Modifier} {e r : Expr} : m.action = .definition → Gives I e r →
      Gives I (.unary m e) r

namespace Invariant

variable {I : Invariant} {may : Expr → Prop}

theorem Kept.gives (kept : I.Kept) {e r : Expr} (gives : I.Gives e r) (admitted : I.admits e) :
    I.admits r := by
  induction gives with
  | literal _ v => exact kept.literal v
  | branches _ _ => exact admitted
  | definition before => exact kept.definition before admitted
  | parens _ inductionHypothesis => exact inductionHypothesis (kept.parens admitted)
  | bound _ _ _ => exact (kept.binary admitted).1
  | selected _ _ _ => exact (kept.binary admitted).2
  | stepped _ _ _ inductionHypothesis => exact inductionHypothesis (kept.binary admitted).2
  | whenTrue _ _ _ inductionHypothesis =>
    exact (kept.branches.1 (inductionHypothesis (kept.binary admitted).2)).1
  | whenFalse _ _ _ inductionHypothesis =>
    exact (kept.branches.1 (inductionHypothesis (kept.binary admitted).2)).2
  | alternatives _ _ _ => exact kept.branches.2 (kept.binary admitted)
  | operand _ _ inductionHypothesis => exact inductionHypothesis (kept.unary admitted)

end Invariant

namespace Invariant.Asking

variable {I : Invariant} {may : Expr → Prop}

/-! ### Operands -/

theorem obtain_operand {e : Expr} (admitted : I.admits e) (asked : may e) (now : Bool) :
    Asking I may (Operand.Of e now) fun eval => Operand.obtain eval now e := by
  cases now with
  | false => exact .result .expr
  | true => exact .bind (.ask admitted asked) fun v _ => .result (.value v)

theorem evaluate {now : Bool} {o : Operand} {e : Expr} (of : o.Of e now) (admitted : I.admits e)
    (asked : may e) : Asking I may (fun _ => True) fun eval => o.evaluate eval := by
  cases of with
  | value v => exact .result True.intro
  | expr => exact .ask admitted asked

theorem stepWith {now : Bool} {o : Operand} {e : Expr} (of : o.Of e now)
    {step : Evaluator → Eval Expr} (asking : Asking I may (I.Gives e) step) :
    Asking I may (I.Gives e) fun eval => o.stepWith (step eval) := by
  cases of with
  | value v => exact .result (.literal _ v)
  | expr => exact asking

theorem target {now : Bool} {o : Operand} {e : Expr} (of : o.Of e now) :
    Asking I may (fun target => target = e) fun _ => Eval.ofExcept o.target := by
  apply ofExcept
  intro target isTarget
  cases of with
  | value v => cases isTarget
  | expr =>
    simp only [Operand.target] at isTarget
    split at isTarget
    · cases isTarget
      rfl
    · cases isTarget

theorem assign (kept : I.Kept) {e : Expr} (definition : I.admits e) :
    ∀ {target : Expr}, I.admits target → Asking I may (fun _ => True) fun _ => target.assign e
  | .cell c, admitted => by
    unfold Expr.assign
    by_cases isVariable : c.kind = .variable
    · simpa only [if_pos isVariable] using .define admitted isVariable definition
    · simpa only [if_neg isVariable] using .failure _
  | .parens inner, admitted =>
    have asking := assign kept definition (kept.parens admitted : I.admits inner)
    asking
  | .literal _, _ | .binary _ _ _, _ | .unary _ _, _ | .call _ _, _ | .branches _ _, _ =>
    .failure _

/-! ### Actions -/

theorem connective {e left right : Expr} {now now' : Bool} {l r : Operand} (ofLeft : l.Of left now)
    (ofRight : r.Of right now') (leftAdmitted : I.admits left) (rightAdmitted : I.admits right)
    (leftAsked : may left) (rightAsked : may right) (absorbing : Bool) :
    Asking I may (I.Gives e) fun eval => Abacus.connective eval absorbing l r := by
  refine .bind (evaluate ofLeft leftAdmitted leftAsked) fun v _ => ?_
  cases v.bind Number.truth? with
  | none => exact .result (.literal _ _)
  | some t =>
    have onRight : Asking I may (I.Gives e) fun eval => do
        let v ← r.evaluate eval
        return Expr.literal ((v.bind Number.truth?).map .ofBool) :=
      .bind (evaluate ofRight rightAdmitted rightAsked) fun _ _ => .result (.literal _ _)
    by_cases absorbs : t = absorbing
    · simpa only [absorbs, if_true] using .result (.literal _ _)
    · simpa only [absorbs, if_false] using onRight

theorem selectBranch {o : Operator} (condition : o.action = .condition) {left right : Expr}
    {now : Bool} {l : Operand} (ofLeft : l.Of left now) (leftAdmitted : I.admits left)
    (leftAsked : may left) {rightStep : Evaluator → Eval Expr}
    (asking : Asking I may (I.Gives right) rightStep) :
    Asking I may (I.Gives (.binary o left right)) fun eval =>
      Abacus.selectBranch eval l (.expr right) (rightStep eval) := by
  refine .bind (evaluate ofLeft leftAdmitted leftAsked) fun v _ => ?_
  cases v.bind Number.truth? with
  | none => exact .result (.literal _ _)
  | some choice =>
    have both : Asking I may
        (fun p => I.Gives (.binary o left right) p.1 ∧ I.Gives (.binary o left right) p.2)
        fun eval => branchesOf (.expr right) (rightStep eval) := by
      unfold branchesOf
      by_cases inert : right.isInert
      · simp only [Operand.isInert, inert, if_true]
        refine .bind asking fun e given => ?_
        split
        · exact .result ⟨.whenTrue condition inert given, .whenFalse condition inert given⟩
        · exact .result ⟨.stepped condition inert given, .literal _ _⟩
      · simp only [Operand.isInert, inert]
        exact .result ⟨.selected _ _ condition, .literal _ _⟩
    refine .bind both fun p given => .result ?_
    cases choice with
    | true => exact given.1
    | false => exact given.2

theorem applyOperator (kept : I.Kept) (o : Operator) {left right : Expr} {l r : Operand}
    (ofLeft : l.Of left o.action.strictness.evaluatesLeft)
    (ofRight : r.Of right o.action.strictness.evaluatesRight)
    (leftAdmitted : I.admits left) (rightAdmitted : I.admits right)
    (leftAsked : may left) (rightAsked : may right) {rightStep : Evaluator → Eval Expr}
    (asking : Asking I may (I.Gives right) rightStep) :
    Asking I may (I.Gives (.binary o left right)) fun eval =>
      o.applyWith eval l r (rightStep eval) := by
  unfold Operator.applyWith
  cases action : o.action with
  | combine rule =>
    refine .bind (evaluate ofLeft leftAdmitted leftAsked) fun a _ =>
      .bind (evaluate ofRight rightAdmitted rightAsked) fun b _ => ?_
    exact .bind (P := fun _ => True) (ofExcept fun _ _ => True.intro) fun v _ =>
      .result (.literal _ v)
  | assign =>
    refine .bind (target ofLeft) fun target isLeft =>
      .bind (evaluate ofRight rightAdmitted rightAsked) fun v _ => ?_
    exact .bind (assign kept (kept.literal v) (isLeft ▸ leftAdmitted)) fun _ _ =>
      .result (.literal _ v)
  | bind =>
    have binds : o.binds := by simp [Operator.binds, action]
    refine .bind (target ofLeft) fun target isLeft => ?_
    have bound {F : Evaluator → Eval Expr} (asking : Asking I may I.admits F) :
        Asking I may (I.Gives (.binary o left right)) fun eval => do
          let definition ← F eval
          target.assign definition
          return target :=
      .bind asking fun e admitted =>
        .bind (assign kept admitted (isLeft ▸ leftAdmitted)) fun _ _ =>
          .result (isLeft ▸ .bound _ _ binds)
    cases r.isInert with
    | true => exact bound (asking.weaken fun e given => kept.gives given rightAdmitted)
    | false =>
      rw [action] at ofRight
      cases ofRight
      exact bound (.result rightAdmitted)
  | update rule =>
    refine .bind (target ofLeft) fun target isLeft =>
      .bind (evaluate ofLeft leftAdmitted leftAsked) fun a _ =>
      .bind (evaluate ofRight rightAdmitted rightAsked) fun b _ => ?_
    refine .bind (P := fun _ => True) (ofExcept fun _ _ => True.intro) fun v _ => ?_
    exact .bind (assign kept (kept.literal v) (isLeft ▸ leftAdmitted)) fun _ _ =>
      .result (.literal _ v)
  | conjunction =>
    exact connective ofLeft ofRight leftAdmitted rightAdmitted leftAsked rightAsked false
  | disjunction =>
    exact connective ofLeft ofRight leftAdmitted rightAdmitted leftAsked rightAsked true
  | condition =>
    rw [action] at ofRight
    cases ofRight
    exact selectBranch action ofLeft leftAdmitted leftAsked asking
  | alternatives =>
    rw [action] at ofLeft ofRight
    cases ofLeft
    cases ofRight
    exact .result (.alternatives _ _ _)

theorem applyModifier (kept : I.Kept) (m : Modifier) {e : Expr} {o : Operand}
    (of : o.Of e m.action.strictness.evaluatesLeft) (admitted : I.admits e) (asked : may e)
    {operandStep : Evaluator → Eval Expr} (asking : Asking I may (I.Gives e) operandStep) :
    Asking I may (I.Gives (.unary m e)) fun eval => m.applyWith eval o (operandStep eval) := by
  unfold Modifier.applyWith
  cases action : m.action with
  | transform rule =>
    refine .bind (evaluate of admitted asked) fun v _ => ?_
    cases v with
    | none => exact .result (.literal _ _)
    | some a =>
      exact .bind (P := fun _ => True) (ofExcept fun _ _ => True.intro) fun v _ =>
        .result (.literal _ v)
  | increase amount =>
    refine .bind (target of) fun target isOperand =>
      .bind (evaluate of admitted asked) fun v _ => ?_
    cases v with
    | none => exact .result (.literal _ _)
    | some old =>
      refine .bind (P := fun _ => True) (ofExcept fun _ _ => True.intro) fun new _ => ?_
      exact .bind (assign kept (kept.literal _) (isOperand ▸ admitted)) fun _ _ =>
        .result (.literal _ _)
  | definition => exact asking.weaken fun r given => .operand action given

/-! ### Calls -/

theorem evaluateAll {es : List Expr} (admitted : ∀ e ∈ es, I.admits e) (asked : ∀ e ∈ es, may e) :
    Asking I may (fun _ => True) fun eval => es.mapM eval := by
  induction es with
  | nil => exact .result True.intro
  | cons e rest inductionHypothesis =>
    rw [List.forall_mem_cons] at admitted asked
    simp only [List.mapM_cons]
    exact .bind (.ask admitted.1 asked.1) fun v _ =>
      .bind (inductionHypothesis admitted.2 asked.2) fun values _ => .result True.intro

theorem callFunction {f : Function} {es : List Expr} (admitted : I.admits (.call f es))
    (arguments : List Value) :
    Asking I may (fun _ => True) fun eval => f.call eval arguments := by
  by_cases count : arguments.length = f.arity
  · cases f with
    | builtin b =>
      simp only [Function.call_builtin count]
      exact ofExcept fun _ _ => True.intro
    | user u =>
      simp only [Function.call_user count]
      exact .call arguments admitted
  · simp only [Function.call_of_ne count]
    exact .failure _

/-! ### Evaluations -/

theorem step (kept : I.Kept) : ∀ {e : Expr}, I.admits e → (∀ x, x.Part e → may x) →
    Asking I may (I.Gives e) fun eval => e.step eval
  | .literal v, _, _ => .result (.literal _ v)
  | .branches a b, _, _ => .result (.branches a b)
  | .cell _, admitted, _ => .definition admitted fun _ before => .definition before
  | .parens _, admitted, asked =>
    (step kept (kept.parens admitted) fun x part => asked x part.parens).weaken
      fun _ given => .parens given
  | .binary o left right, admitted, asked =>
    have leftAsked := asked _ (.left o left right)
    have rightAsked := asked _ (.right o left right)
    have inner := step kept (kept.binary admitted).2 fun x part =>
      asked x (part.underRight o left)
    .bind (obtain_operand (kept.binary admitted).1 leftAsked _) fun _ ofLeft =>
      .bind (obtain_operand (kept.binary admitted).2 rightAsked _) fun _ ofRight =>
        applyOperator kept o ofLeft ofRight (kept.binary admitted).1 (kept.binary admitted).2
          leftAsked rightAsked (stepWith ofRight inner)
  | .unary m operand, admitted, asked =>
    have inner := step kept (kept.unary admitted) fun x part =>
      asked x (part.underOperand m)
    .bind (obtain_operand (kept.unary admitted) (asked _ (.operand m operand)) _) fun _ of =>
      applyModifier kept m of (kept.unary admitted) (asked _ (.operand m operand))
        (stepWith of inner)
  | .call f _, admitted, asked =>
    .bind (evaluateAll (kept.arguments admitted) fun x member => asked x (.argument f member))
      fun values _ => .bind (callFunction admitted values) fun v _ => .result (.literal _ v)

theorem resolve (kept : I.Kept) : ∀ {e : Expr}, I.admits e → (∀ x, x.Part e → may x) →
    (∀ r, e.isAction → I.Gives e r → may r) →
    Asking I may (fun _ => True) fun eval => e.resolve eval
  | .literal _, _, _, _ => .result True.intro
  | .branches _ _, _, _, _ => .failure _
  | .cell _, admitted, _, _ => .read admitted
  | .parens inner, admitted, asked, given =>
    resolve kept (e := inner) (kept.parens admitted) (fun x part => asked x part.parens)
      fun r action gives => given r action (.parens gives)
  | .binary o _ _, admitted, asked, given => by
    refine .bind (step kept admitted asked) fun r gives => ?_
    cases o.binds with
    | true => exact .result True.intro
    | false => exact .ask (kept.gives gives admitted) (given r rfl gives)
  | .unary _ _, admitted, asked, given =>
    .bind (step kept admitted asked) fun r gives =>
      .ask (kept.gives gives admitted) (given r rfl gives)
  | .call _ _, admitted, asked, given =>
    .bind (step kept admitted asked) fun r gives =>
      .ask (kept.gives gives admitted) (given r rfl gives)

end Invariant.Asking

end Abacus
