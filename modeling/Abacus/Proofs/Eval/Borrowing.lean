import Abacus.Proofs.Eval.Vocabulary

/-!
# What an evaluation borrows

A call borrows the cells of its parameters, and reads and calls are counted while they are under
way.  However an evaluation ends, the cells stand again for what they stood for and the counts are
what they were.
-/

namespace Abacus

open Eval

/-! ## Cells that are bound -/

/-- What a list of bindings gives a cell; of two bindings for one number the later counts. -/
def Store.given : List (Cell × Expr) → Cell → Option Expr
  | [], _ => none
  | (c, e) :: rest, d => (given rest d).or (if c.id = d.id then some e else none)

def UserFunction.Borrows (u : UserFunction) (c : Cell) : Prop := ∃ p ∈ u.parameters, p.id = c.id

instance (u : UserFunction) (c : Cell) : Decidable (u.Borrows c) :=
  inferInstanceAs (Decidable (∃ p ∈ u.parameters, p.id = c.id))

namespace Store

theorem definition_defineAll (s : Store) (pairs : List (Cell × Expr)) (d : Cell) :
    (s.defineAll pairs).definition d = (given pairs d).getD (s.definition d) := by
  unfold defineAll
  induction pairs generalizing s with
  | nil => rfl
  | cons pair rest inductionHypothesis =>
    obtain ⟨c, e⟩ := pair
    rw [List.foldl_cons, inductionHypothesis, given, definition_define]
    cases given rest d with
    | some _ => rfl
    | none => by_cases same : c.id = d.id <;> simp [same]

@[simp] theorem body_defineAll (s : Store) (pairs : List (Cell × Expr)) (u : UserFunction) :
    (s.defineAll pairs).body u = s.body u := by
  unfold defineAll
  induction pairs generalizing s with
  | nil => rfl
  | cons pair rest inductionHypothesis =>
    rw [List.foldl_cons, inductionHypothesis]
    rfl

theorem definition_congr (s : Store) {c d : Cell} (same : c.id = d.id) :
    s.definition c = s.definition d := by
  unfold definition
  rw [same]

theorem given_eq_none {pairs : List (Cell × Expr)} {d : Cell} (other : ∀ p ∈ pairs, p.1.id ≠ d.id) :
    given pairs d = none := by
  induction pairs with
  | nil => rfl
  | cons pair rest inductionHypothesis =>
    rw [List.forall_mem_cons] at other
    rw [given, inductionHypothesis other.2, if_neg other.1]
    rfl

theorem exists_given_arguments {parameters : List Cell} {arguments : List Value} {d : Cell}
    (count : arguments.length = parameters.length) (among : ∃ p ∈ parameters, p.id = d.id) :
    ∃ v, given (parameters.zip (arguments.map Expr.literal)) d = some (.literal v) := by
  induction parameters generalizing arguments with
  | nil =>
    obtain ⟨_, impossible, _⟩ := among
    cases impossible
  | cons p rest inductionHypothesis =>
    cases arguments with
    | nil => cases count
    | cons v values =>
      have restCount : values.length = rest.length := by simpa using count
      rw [List.map_cons, List.zip_cons_cons, given]
      by_cases later : ∃ q ∈ rest, q.id = d.id
      · obtain ⟨w, found⟩ := inductionHypothesis restCount later
        exact ⟨w, by simp [found]⟩
      · -- No later parameter has this number, so the first one has it.
        have first : p.id = d.id := by
          obtain ⟨q, member, same⟩ := among
          rcases List.mem_cons.1 member with rfl | member
          · exact same
          · exact absurd ⟨q, member, same⟩ later
        have unbound : given (rest.zip (values.map Expr.literal)) d = none :=
          given_eq_none fun pair member same =>
            later ⟨pair.1, (List.of_mem_zip member).1, same⟩
        exact ⟨v, by simp [unbound, first]⟩

theorem exists_literal_of_given {parameters : List Cell} {arguments : List Value} {d : Cell}
    {e : Expr} (bound : given (parameters.zip (arguments.map Expr.literal)) d = some e) :
    ∃ v, e = .literal v := by
  induction parameters generalizing arguments with
  | nil => cases bound
  | cons p rest inductionHypothesis =>
    cases arguments with
    | nil => cases bound
    | cons v values =>
      rw [List.map_cons, List.zip_cons_cons, given] at bound
      rcases Option.or_eq_some_iff.1 bound with later | ⟨_, first⟩
      · exact inductionHypothesis later
      · obtain ⟨_, same⟩ := Option.ite_none_right_eq_some.1 first
        exact ⟨v, (Option.some.inj same).symm⟩

theorem given_saved (s : Store) (parameters : List Cell) (d : Cell) :
    given (parameters.map fun c => (c, s.definition c)) d =
      if ∃ p ∈ parameters, p.id = d.id then some (s.definition d) else none := by
  induction parameters with
  | nil => simp [given]
  | cons p rest inductionHypothesis =>
    rw [List.map_cons, given, inductionHypothesis]
    by_cases later : ∃ q ∈ rest, q.id = d.id
    · simp [later]
    · rw [if_neg later, Option.none_or]
      by_cases first : p.id = d.id
      · simp [first, s.definition_congr first]
      · simpa [first] using later

end Store

/-! ## Calls -/

namespace Eval

variable {s t : Store} {u : UserFunction} {arguments : List Value} {d : Cell}

theorem body_enterCall (w : UserFunction) : (enterCall s u arguments).body w = s.body w :=
  Store.body_defineAll (s.enterCall u) _ w

theorem readDepth_enterCall (c : Cell) : (enterCall s u arguments).readDepth c = s.readDepth c :=
  Store.readDepth_defineAll (s.enterCall u) _ c

theorem callDepth_enterCall (w : UserFunction) : (enterCall s u arguments).callDepth w =
    if u.id = w.id then s.callDepth u + 1 else s.callDepth w := by
  rw [enterCall, Store.callDepth_defineAll, Store.callDepth_enterCall]

theorem body_leaveCall (w : UserFunction) : (leaveCall s u t).body w = t.body w :=
  Store.body_defineAll t _ w

theorem readDepth_leaveCall (c : Cell) : (leaveCall s u t).readDepth c = t.readDepth c :=
  Store.readDepth_defineAll t _ c

theorem callDepth_leaveCall (w : UserFunction) : (leaveCall s u t).callDepth w =
    if u.id = w.id then t.callDepth u - 1 else t.callDepth w := by
  rw [leaveCall, Store.callDepth_leaveCall, Store.callDepth_defineAll, Store.callDepth_defineAll]

theorem definition_enterCall : (enterCall s u arguments).definition d =
    (Store.given (u.parameters.zip (arguments.map Expr.literal)) d).getD (s.definition d) :=
  Store.definition_defineAll (s.enterCall u) _ d

theorem definition_enterCall_of_not_borrows (other : ¬ u.Borrows d) :
    (enterCall s u arguments).definition d = s.definition d := by
  rw [definition_enterCall, Store.given_eq_none]
  · rfl
  · exact fun pair member same => other ⟨pair.1, (List.of_mem_zip member).1, same⟩

/-- A call gives its parameters back, whatever its body made of them. -/
theorem definition_leaveCall : (leaveCall s u t).definition d =
    if u.Borrows d then s.definition d else t.definition d := by
  show (t.defineAll _).definition d = _
  rw [Store.definition_defineAll, Store.given_saved]
  by_cases borrowed : u.Borrows d
  · rw [if_pos borrowed]
    exact congrArg (Option.getD · _) (if_pos borrowed)
  · rw [if_neg borrowed]
    exact congrArg (Option.getD · _) (if_neg borrowed)

end Eval

theorem Function.definition_of_call {eval : Evaluator} {f : Function} {arguments : List Value}
    {s t : Store} {r : Except EvalError Value}
    (ends : (f.call eval arguments).runOn s = some (r, t)) {c : Cell}
    (parameter : c ∈ f.parameters) : t.definition c = s.definition c := by
  by_cases count : arguments.length = f.arity
  · cases f with
    | builtin b => cases parameter
    | user u =>
      rw [Function.call_user count, runOn_calling] at ends
      split at ends
      · cases ends
        rfl
      · obtain ⟨⟨_, inside⟩, _, same⟩ := Option.map_eq_some_iff.1 ends
        cases same
        rw [definition_leaveCall, if_pos ⟨c, parameter, rfl⟩]
  · rw [Function.call_of_ne count] at ends
    cases ends
    rfl

/-! ## Actions on operands of any kind -/

namespace Invariant.Asking

variable {I : Invariant} {may : Expr → Prop}

/-- An operand of which a computation asks no more than it may. -/
structure Offers (I : Invariant) (may : Expr → Prop) (o : Operand) : Prop where
  expr : I.admits o.toExpr
  evaluate : Asking I may (fun _ => True) fun eval => o.evaluate eval
  target : Asking I may I.admits fun _ => Eval.ofExcept o.target

theorem frozen_offers {e : Expr} (admitted : I.admits e) : Offers I may (.frozen e) where
  expr := admitted
  evaluate := .result True.intro
  target := (Asking.target (o := .expr e) .expr).weaken fun _ same => same ▸ admitted

theorem apply_operator (kept : I.Kept) (o : Operator) {l r : Operand} (left : Offers I may l)
    (right : Offers I may r) {rightStep : Evaluator → Eval Expr}
    (asking : Asking I may I.admits rightStep) :
    Asking I may I.admits fun eval => o.applyWith eval l r (rightStep eval) := by
  have literal (v : Value) : Asking I may I.admits fun _ => pure (.literal v) :=
    .result (kept.literal v)
  have assigning {target : Expr} (admitted : I.admits target) (v : Value) :
      Asking I may I.admits fun _ => do
        target.assign (.literal v)
        return .literal v :=
    .bind (assign kept (kept.literal v) admitted) fun _ _ => literal v
  have connecting (absorbing : Bool) :
      Asking I may I.admits fun eval => Abacus.connective eval absorbing l r := by
    refine .bind left.evaluate fun v _ => ?_
    cases v.bind Number.truth? with
    | none => exact literal none
    | some t =>
      by_cases absorbs : t = absorbing
      · simpa only [absorbs, if_true] using literal _
      · simpa only [absorbs, if_false] using .bind right.evaluate fun w _ => literal _
  unfold Operator.applyWith
  cases o.action with
  | combine rule =>
    exact .bind left.evaluate fun a _ => .bind right.evaluate fun b _ =>
      .bind (P := fun _ => True) (ofExcept fun _ _ => True.intro) fun v _ => literal v
  | assign =>
    exact .bind left.target fun _ admitted => .bind right.evaluate fun v _ => assigning admitted v
  | bind =>
    refine .bind left.target fun target admitted => ?_
    have binding {F : Evaluator → Eval Expr} (stored : Asking I may I.admits F) :
        Asking I may I.admits fun eval => do
          let definition ← F eval
          target.assign definition
          return target :=
      .bind stored fun e good => .bind (assign kept good admitted) fun _ _ => .result admitted
    cases r.isInert with
    | true => exact binding asking
    | false => exact binding (.result right.expr)
  | update rule =>
    exact .bind left.target fun _ admitted =>
      .bind left.evaluate fun a _ => .bind right.evaluate fun b _ =>
      .bind (P := fun _ => True) (ofExcept fun _ _ => True.intro) fun v _ => assigning admitted v
  | conjunction => exact connecting false
  | disjunction => exact connecting true
  | condition =>
    refine .bind left.evaluate fun v _ => ?_
    cases v.bind Number.truth? with
    | none => exact literal none
    | some choice =>
      have both : Asking I may (fun p => I.admits p.1 ∧ I.admits p.2) fun eval =>
          branchesOf r (rightStep eval) := by
        unfold branchesOf
        cases r.isInert with
        | false => exact .result ⟨right.expr, kept.literal none⟩
        | true =>
          refine .bind asking fun e admitted => ?_
          split
          · exact .result (kept.branches.1 admitted)
          · exact .result ⟨admitted, kept.literal none⟩
      refine .bind both fun p admitted => .result ?_
      cases choice with
      | true => exact admitted.1
      | false => exact admitted.2
  | alternatives => exact .result (kept.branches.2 ⟨left.expr, right.expr⟩)

theorem apply_modifier (kept : I.Kept) (m : Modifier) {o : Operand} (operand : Offers I may o)
    {operandStep : Evaluator → Eval Expr} (asking : Asking I may I.admits operandStep) :
    Asking I may I.admits fun eval => m.applyWith eval o (operandStep eval) := by
  have literal (v : Value) : Asking I may I.admits fun _ => pure (.literal v) :=
    .result (kept.literal v)
  unfold Modifier.applyWith
  cases m.action with
  | transform rule =>
    refine .bind operand.evaluate fun v _ => ?_
    cases v with
    | none => exact literal none
    | some a =>
      exact .bind (P := fun _ => True) (ofExcept fun _ _ => True.intro) fun v _ => literal v
  | increase amount =>
    refine .bind operand.target fun target admitted => .bind operand.evaluate fun v _ => ?_
    cases v with
    | none => exact literal none
    | some old =>
      refine .bind (P := fun _ => True) (ofExcept fun _ _ => True.intro) fun new _ => ?_
      exact .bind (assign kept (kept.literal _) admitted) fun _ _ => literal _
  | definition => exact asking

theorem frozen_step (kept : I.Kept) {e : Expr} (admitted : I.admits e)
    (asked : ∀ x, x.Part e → may x) :
    Asking I may I.admits fun eval => (Operand.frozen e).step eval := by
  have stepping := (Asking.step kept admitted asked).weaken fun r gives => kept.gives gives admitted
  show Asking I may I.admits fun eval => if e.isInert then e.step eval else pure e
  cases e.isInert with
  | true => exact stepping
  | false => exact .result admitted

theorem contract (kept : I.Kept) : ∀ {e : Expr}, I.admits e → (∀ x, x.Part e → may x) →
    Asking I may I.admits fun eval => e.contract eval
  | .literal v, _, _ => .result (kept.literal v)
  | .branches _ _, admitted, _ => .result admitted
  | .cell _, admitted, _ => .definition admitted fun _ before => kept.definition before admitted
  | .parens inner, admitted, asked =>
    contract kept (e := inner) (kept.parens admitted) fun x part => asked x part.parens
  | .binary o left _, admitted, asked =>
    apply_operator kept o (frozen_offers (kept.binary admitted).1)
      (frozen_offers (kept.binary admitted).2)
      (frozen_step kept (kept.binary admitted).2 fun x part => asked x (part.underRight o left))
  | .unary m _, admitted, asked =>
    apply_modifier kept m (frozen_offers (kept.unary admitted))
      (frozen_step kept (kept.unary admitted) fun x part => asked x (part.underOperand m))
  | .call _ _, admitted, _ =>
    .bind (callFunction admitted _) fun v _ => .result (kept.literal v)

end Invariant.Asking

/-! ## Main result -/

namespace Eval

theorem sameCounts_of_asking {α : Type} {P : α → Prop} {F : Evaluator → Eval α}
    (asking : (Vocabulary.invariant {}).Asking (fun _ => True) P F) {budget : Nat} {s t : Store}
    {r : Except EvalError α} (ends : (F (Expr.eval budget)).runOn s = some (r, t)) :
    s.SameCounts t := by
  have before : s.Uses {} :=
    ⟨fun c => (s.definition c).uses_anything, fun u => (s.body u).uses_anything⟩
  have keeps := asking.keeps (Vocabulary.kept {}) ((Vocabulary.kept {}).eval budget)
  exact (keeps s r t before ends).2.1

/-- However a call ends, its parameters stand again for what they stood for before it, and however
    a call, an evaluation, a step or a contraction ends, as many reads of every cell and calls of
    every function are under way as before. -/
theorem evaluation_gives_back (budget : Nat) (f : Function) (arguments : List Value) (e : Expr)
    (s t : Store) :
    (∀ r, (f.call (Expr.eval budget) arguments).runOn s = some (r, t) →
      (∀ c ∈ f.parameters, t.definition c = s.definition c) ∧ s.SameCounts t) ∧
    (∀ r, (e.eval budget).runOn s = some (r, t) → s.SameCounts t) ∧
    (∀ r, (e.step (Expr.eval budget)).runOn s = some (r, t) → s.SameCounts t) ∧
    (∀ r, (e.contract (Expr.eval budget)).runOn s = some (r, t) → s.SameCounts t) := by
  have kept := Vocabulary.kept {}
  have admitted (x : Expr) : (Vocabulary.invariant {}).admits x := x.uses_anything
  have asked (x : Expr) (_ : x.Part e) : True := True.intro
  refine ⟨fun r ends => ⟨fun c parameter => Function.definition_of_call ends parameter, ?_⟩,
    fun r ends => ?_, fun r ends => ?_, fun r ends => ?_⟩
  · exact sameCounts_of_asking (.callFunction (admitted (.call f [])) arguments) ends
  · exact sameCounts_of_asking (.ask (admitted e) True.intro) ends
  · exact sameCounts_of_asking (.step kept (admitted e) asked) ends
  · exact sameCounts_of_asking (.contract kept (admitted e) asked) ends

/-- A function that calls itself until it is too deep gives back its parameter, which stood for 7. -/
theorem endless_call_gives_back :
    let n : Cell := ⟨4, "n", .variable⟩
    let spin : UserFunction := ⟨5, "spin", [n]⟩
    let next : Expr := .binary ⟨"+", .combine .add⟩ (.cell n) (.literal (some (.integer 1)))
    let s : Store := (Store.define {} n (.literal (some (.integer 7)))).withBody spin
      (.call (.user spin) [next])
    ∃ t, ((Function.user spin).call (Expr.eval 140) [some (.integer 0)]).runOn s =
        some (.error (.tooDeep "spin"), t) ∧
      t.definition n = .literal (some (.integer 7)) ∧ t.callDepth spin = 0 := by
  intro n spin next s
  have computed : (((Function.user spin).call (Expr.eval 140) [some (.integer 0)]).runOn s).any
      fun outcome => match outcome.1 with
        | .error cause => cause = .tooDeep "spin"
        | .ok _ => false := by
    decide +kernel
  obtain ⟨⟨r, t⟩, ends, failed⟩ := (Option.any_eq_true _ _).1 computed
  cases r with
  | ok v => cases failed
  | error cause =>
    obtain ⟨returned, counts⟩ :=
      (evaluation_gives_back 140 (.user spin) [some (.integer 0)] .void s t).1 _ ends
    exact ⟨t, of_decide_eq_true failed ▸ ends, returned n List.mem_cons_self, counts.2 spin⟩

end Eval

end Abacus
