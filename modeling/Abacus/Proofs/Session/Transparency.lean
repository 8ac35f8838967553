import Abacus.Proofs.Eval.Parentheses
import Abacus.Proofs.Parse.Mention
import Abacus.Proofs.Session.History

/-!
# Transparent parentheses

Nothing that a line is parsed to and nothing that a session stores has parentheses around a pair of
branches, so the parentheses that are written make no difference to what lines are evaluated to.
-/

namespace Abacus.Session

open Fallible Parse

variable {p : Grammar.Plan} {g : Grammar} {s s' : Session} {v : Value}

/-! ## Exposed branches -/

/-- Pairs of branches are made by evaluations; what is parsed has none. -/
theorem composes_exposed (scope : Scope) (final : Table String Cell) :
    scope.Composes final fun e => e.isPair = false ∧ e.Exposed where
  literal v := ⟨rfl, Expr.exposed_literal v⟩
  cell _ := ⟨rfl, Expr.exposed_cell _⟩
  leading _ := ⟨rfl, Expr.exposed_cell _⟩
  parens exposed := ⟨rfl, Expr.exposed_parens.2 exposed⟩
  call _ arguments := ⟨rfl, Expr.exposed_call.2 fun e member => (arguments e member).2⟩
  binary _ _ _ left right := ⟨rfl, Expr.exposed_binary.2 ⟨left.2, right.2⟩⟩
  unary _ _ operand := ⟨rfl, Expr.exposed_unary.2 operand.2⟩

theorem exposed_of_parse {scope : Scope} (accepted : p.toGrammar = .ok scope.grammar)
    {line : String} {parsed : Parsed} (parses : Parse.parse scope line = .ok parsed) :
    ∀ e ∈ parsed.expr, e.Exposed := fun e member =>
  ((composed_of_parse accepted parses fun _ => composes_exposed scope _).2 e member).2

/-- Sessions over a grammar that store no pair of branches in parentheses. -/
structure Unhidden (g : Grammar) (s : Session) : Prop where
  grammar : s.grammar = g
  store : s.store.Exposed

namespace Unhidden

variable (accepted : p.toGrammar = .ok g) (before : Unhidden g s)

include before

theorem define {c : Cell} {e : Expr} (added : e.Exposed) :
    Unhidden g { s with store := s.store.define c e } :=
  ⟨before.grammar, before.store.define added⟩

include accepted

theorem parse {line : String} {e : Option Expr} (parses : s.parse line = .ok (e, s')) :
    Unhidden g s' ∧ ∀ e' ∈ e, e'.Exposed := by
  obtain ⟨parsed, ends, same⟩ := bind_eq_ok.1 parses
  cases same
  have accepted : p.toGrammar = .ok s.scope.grammar :=
    accepted.trans (congrArg _ before.grammar.symm)
  exact ⟨⟨before.grammar, before.store⟩, exposed_of_parse accepted ends⟩

theorem effect (effect : s.Effect s') : Unhidden g s' := by
  cases effect with
  | none => exact before
  | print parses => exact (before.parse accepted parses).1
  | @define _ u _ _ _ _ _ parses body =>
    have accepted : p.toGrammar = .ok ((s.declare u).bodyScope u).grammar :=
      accepted.trans (congrArg _ before.grammar.symm)
    exact ⟨before.grammar, before.store.withBody (exposed_of_parse accepted parses _ body)⟩
  | deleteFunction _ => exact ⟨before.grammar, before.store⟩
  | deleteVariable _ _ => exact ⟨before.grammar, before.store⟩

end Unhidden

theorem History.unhidden (accepted : p.toGrammar = .ok g) (history : History g s v) :
    Unhidden g s := by
  refine history.keeps (P := fun s _ => Unhidden g s) ?_
  exact
    { start := fun settings => ⟨rfl, start_all g Expr.exposed_literal⟩
      adjust := fun settings before => ⟨before.grammar, before.store⟩
      effect := fun before effect => before.effect accepted effect
      parse := fun before parses => (before.parse accepted parses).1
      evaluate := fun before parses evaluates => by
        obtain ⟨between, exposed⟩ := before.parse accepted parses
        obtain ⟨⟨_, store⟩, ends, same⟩ := Option.map_eq_some_iff.1 evaluates
        cases same
        exact ⟨between.grammar,
          (exposure_kept.eval _ _ (exposed _ rfl) _ _ _ between.store ends).1⟩
      remember := fun w before => by
        cases w with
        | none => exact before
        | some a => exact before.define (Expr.exposed_literal _) }

/-! ## Main result -/

/-- Parentheses are transparent.  Where no pair of branches that has been made already is in
    parentheses, an expression and a store can lose all of them: the expression is as inert and as
    assignable as before, evaluations of it give the same value or fail alike, its steps and
    contractions give the same expression without parentheses, and what cells and functions stand
    for in the end is the same without parentheses.  All that lines are parsed to and all that
    sessions store in accepted grammars is of this kind. -/
theorem parentheses_are_transparent :
    (∀ (e : Expr) (s : Store), e.Exposed → s.Exposed →
      e.withoutParens.isInert = e.isInert ∧ e.withoutParens.isVariable = e.isVariable ∧
      ∀ budget,
        Eval.Agree Eq Store.Unwraps ((e.eval budget).runOn s)
          ((e.withoutParens.eval budget).runOn s.withoutParens) ∧
        Eval.Agree (fun r r' => r' = r.withoutParens) Store.Unwraps
          ((e.step (Expr.eval budget)).runOn s)
          ((e.withoutParens.step (Expr.eval budget)).runOn s.withoutParens) ∧
        Eval.Agree (fun r r' => r' = r.withoutParens) Store.Unwraps
          ((e.contract (Expr.eval budget)).runOn s)
          ((e.withoutParens.contract (Expr.eval budget)).runOn s.withoutParens)) ∧
    ∀ (p : Grammar.Plan) (g : Grammar) (s : Session) (v : Value), p.toGrammar = .ok g →
      History g s v → s.store.Exposed ∧
        ∀ line e s', s.parse line = .ok (some e, s') → e.Exposed := by
  constructor
  · intro e s exposed stored
    let loan : Loan := ⟨fun _ => .void, fun _ => .void⟩
    have fits : loan.Fits .unwrapping .absent := True.intro
    have same : Expr.Simplifies .unwrapping .absent e e.withoutParens := exposed.simplifies
    refine ⟨same.isInert_of_unwrapping, same.isVariable fun _ _ lent => lent, fun budget => ?_⟩
    have simulating := Expr.eval_simulating .unwrapping budget
    refine ⟨(simulating.simulates fits same).agree stored, ?_, ?_⟩
    · exact ((Eval.Simulates.step simulating fits same).agree stored).mono
        (fun _ _ equal => equal.eq_withoutParens) fun _ _ => id
    · exact ((Eval.Simulates.contract simulating fits same).agree stored).mono
        (fun _ _ equal => equal.eq_withoutParens) fun _ _ => id
  · intro p g s v accepted history
    have unhidden := history.unhidden accepted
    exact ⟨unhidden.store, fun line e s' parses => (unhidden.parse accepted parses).2 e rfl⟩

/-- Parentheses around a variable that is changed, in what it stands for and in what is added. -/
theorem unwrapped_update_agrees :
    ∃ s v e s' t, History Grammar.standard s v ∧ s.parse "(x) += ((3))" = .ok (some e, s') ∧
      (e.withoutParens.eval 20).runOn s'.store.withoutParens =
        some (.ok (some (.integer 6)), t) := by
  have computed : ((Session.start Grammar.standard).run 20 "x := (1 + (2))").any fun first =>
      (first.2.parse "(x) += ((3))").toOption.any fun parsed => parsed.1.any fun e =>
        ((e.eval 20).runOn parsed.2.store).any fun outcome =>
          outcome.1.toOption.any fun v => Expr.isInteger 6 (.literal v) := by
    decide +kernel
  obtain ⟨⟨reply, s⟩, binds, computed⟩ := (Option.any_eq_true _ _).1 computed
  have history := (History.start {}).run binds
  obtain ⟨⟨_, s'⟩, parses, computed⟩ := exists_of_any computed
  obtain ⟨e, rfl, computed⟩ := (Option.any_eq_true _ _).1 computed
  obtain ⟨⟨_, u⟩, ends, six⟩ := (Option.any_eq_true _ _).1 computed
  obtain ⟨v, rfl, six⟩ := exists_of_any six
  cases Expr.eq_of_isInteger six
  obtain ⟨transparent, reachable⟩ := parentheses_are_transparent
  have exposed := (reachable _ _ s _ Grammar.toGrammar_standard history).2 _ _ _ parses
  have stored := (reachable _ _ s' _ Grammar.toGrammar_standard (history.parse parses)).1
  have agree := ((transparent e s'.store exposed stored).2.2 20).1
  rw [ends] at agree
  generalize outcome : (e.withoutParens.eval 20).runOn s'.store.withoutParens = o at agree
  cases agree with
  | value equal _ =>
    cases equal
    exact ⟨s, _, e, s', _, history, parses, outcome⟩

end Abacus.Session
