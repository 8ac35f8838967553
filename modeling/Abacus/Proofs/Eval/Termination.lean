import Abacus.Grammar.Standard
import Abacus.Proofs.Eval.Need
import Abacus.Proofs.Eval.Vocabulary
import Abacus.Session.Run
import Mathlib.Algebra.Order.BigOperators.Group.Finset
import Mathlib.Order.WellFounded

/-!
# Termination of evaluations

Along a chain of needs an evaluation goes to a lighter expression in a store with
the same counts, or into a counted read or call, of which there is only room for
finitely many.  The one exception is a dereference, which evaluates what a cell
stands for without counting a read: an evaluation ends unless it dereferences
forever.
-/

namespace Abacus

open Eval

namespace Expr

/-! ## Dereferences -/

/-- Whether one step of an expression gives what a cell stands for. -/
def opens : Expr → Bool
  | .cell _ => true
  | .parens inner => inner.opens
  | .unary m operand =>
    match m.action with
    | .definition => operand.opens
    | _ => false
  | .binary o _ right =>
    match o.action with
    | .condition => right.isInert && right.opens
    | _ => false
  | .literal _ | .call _ _ | .branches _ _ => false

/-- Whether evaluating an expression evaluates what a cell stands for without counting a read, as
    `$x` and `c ? $x` do. -/
def dereferences (e : Expr) : Bool := e.isAction && e.opens

def withoutDereference : Vocabulary where
  modifier m := m.isDeferred = false

theorem isInert_of_opens : ∀ {e : Expr}, e.Uses withoutDereference → e.opens →
    e.isInert = false ∧ e.isAction = false
  | .cell _, _, _ => ⟨rfl, rfl⟩
  | .parens inner, uses, opens => isInert_of_opens (e := inner) uses opens
  | .unary m operand, uses, opens => by
    have notDeferred : m.isDeferred = false := uses.1
    simp only [Expr.opens] at opens
    split at opens
    · rename_i action
      simp [Modifier.isDeferred, action, Modifier.Action.strictness] at notDeferred
    · cases opens
  | .binary o left right, uses, opens => by
    simp only [Expr.opens] at opens
    split at opens
    · obtain ⟨inert, opens⟩ := Bool.and_eq_true_iff.1 opens
      have notInert := (isInert_of_opens (e := right) uses.2 opens).1
      cases inert.symm.trans notInert
    · cases opens

theorem not_dereferences {e : Expr} (uses : e.Uses withoutDereference) : ¬ e.dereferences := by
  intro dereferences
  obtain ⟨action, opens⟩ := Bool.and_eq_true_iff.1 dereferences
  cases action.symm.trans (isInert_of_opens uses opens).2

/-! ## Weights -/

mutual

/-- A bound on the steps inside of an expression. -/
def weight : Expr → Nat
  | .literal _ | .cell _ => 1
  | .binary _ left right => left.weight + right.weight + 2
  | .unary _ operand => operand.weight + 1
  | .call _ arguments => weights arguments + 2
  | .parens inner => inner.weight + 1
  | .branches whenTrue whenFalse => whenTrue.weight + whenFalse.weight + 1

def weights : List Expr → Nat
  | [] => 0
  | e :: rest => e.weight + weights rest

end

theorem weight_le_weights {e : Expr} {es : List Expr} (member : e ∈ es) :
    e.weight ≤ weights es := by
  induction es with
  | nil => cases member
  | cons first rest inductionHypothesis =>
    rw [weights]
    rcases List.mem_cons.1 member with rfl | member
    · omega
    · have := inductionHypothesis member
      omega

theorem weight_pos (e : Expr) : 0 < e.weight := by
  cases e <;> simp [weight]

theorem one_lt_weight : ∀ {e : Expr}, e.isAction → 1 < e.weight
  | .binary _ _ _, _ => by simp only [weight]; omega
  | .unary _ operand, _ => by
    have := operand.weight_pos
    simp only [weight]
    omega
  | .call _ _, _ => by simp only [weight]; omega
  | .parens inner, _ => by
    have := inner.weight_pos
    simp only [weight]
    omega

theorem Part.weight_lt {x e : Expr} (part : x.Part e) : x.weight < e.weight := by
  induction part with
  | left _ _ _ | right _ _ _ | operand _ _ =>
    simp only [weight]
    omega
  | argument _ member =>
    have := weight_le_weights member
    simp only [weight]
    omega
  | parens _ inductionHypothesis | underRight _ _ _ inductionHypothesis
  | underOperand _ _ inductionHypothesis =>
    simp only [weight]
    omega

/-- A step that opens no cell gives something no heavier, and an action something lighter. -/
theorem weight_of_gives {I : Invariant} {e r : Expr} (gives : I.Gives e r) (closed : ¬ e.opens) :
    r.weight ≤ e.weight ∧ (e.isAction → r.weight < e.weight) := by
  induction gives with
  | literal e v => exact ⟨e.weight_pos, one_lt_weight⟩
  | branches _ _ => exact ⟨le_rfl, fun action => nomatch action⟩
  | definition _ => exact absurd rfl closed
  | parens _ inductionHypothesis =>
    have := inductionHypothesis closed
    simp only [weight]
    omega
  | bound _ _ _ | selected _ _ _ | alternatives _ _ _ =>
    simp only [weight]
    omega
  | stepped condition inert _ inductionHypothesis =>
    simp only [Expr.opens, condition, inert, Bool.true_and] at closed
    have := inductionHypothesis closed
    simp only [weight]
    omega
  | whenTrue condition inert _ inductionHypothesis
  | whenFalse condition inert _ inductionHypothesis =>
    simp only [Expr.opens, condition, inert, Bool.true_and] at closed
    have := inductionHypothesis closed
    simp only [weight] at this ⊢
    omega
  | operand definition _ inductionHypothesis =>
    simp only [Expr.opens, definition] at closed
    have := inductionHypothesis closed
    simp only [weight]
    omega

end Expr

/-! ## Room for reads and calls -/

namespace Store

/-- How many more reads and calls there is room for, of cells and functions numbered below `n`. -/
def room (n : Nat) (s : Store) : Nat :=
  (∑ i ∈ Finset.range n, (readLimit - s.readDepth ⟨i, "", .variable⟩)) +
    ∑ i ∈ Finset.range n, (callLimit - s.callDepth ⟨i, "", []⟩)

theorem room_of_sameCounts {s t : Store} (same : s.SameCounts t) (n : Nat) :
    t.room n = s.room n := by
  simp only [room, same.1, same.2]

theorem room_enterRead {n : Nat} {s : Store} {c : Cell} (bounded : c.id < n)
    (space : s.readDepth c < readLimit) : (s.enterRead c).room n < s.room n := by
  apply Nat.add_lt_add_right
  apply Finset.sum_lt_sum
  · intro i _
    rw [readDepth_enterRead]
    split
    · rename_i same
      have depth : s.readDepth c = s.readDepth ⟨i, "", .variable⟩ := by
        unfold readDepth
        rw [same]
      omega
    · exact le_rfl
  · refine ⟨c.id, Finset.mem_range.2 bounded, ?_⟩
    rw [readDepth_enterRead, if_pos rfl]
    have depth : s.readDepth ⟨c.id, "", .variable⟩ = s.readDepth c := rfl
    omega

theorem room_enterCall {n : Nat} {s : Store} {u : UserFunction} (arguments : List Value)
    (bounded : u.id < n) (space : s.callDepth u < callLimit) :
    (Eval.enterCall s u arguments).room n < s.room n := by
  simp only [room, Eval.enterCall, readDepth_defineAll, callDepth_defineAll]
  apply Nat.add_lt_add_left
  apply Finset.sum_lt_sum
  · intro i _
    rw [callDepth_enterCall]
    split
    · rename_i same
      have depth : s.callDepth u = s.callDepth ⟨i, "", []⟩ := by
        unfold callDepth
        rw [same]
      omega
    · exact le_rfl
  · refine ⟨u.id, Finset.mem_range.2 bounded, ?_⟩
    rw [callDepth_enterCall, if_pos rfl]
    have depth : s.callDepth ⟨u.id, "", []⟩ = s.callDepth u := rfl
    omega

end Store

/-! ## Endless evaluations -/

namespace Evaluation

/-- Whether an expression and what it can lead to keep to a vocabulary. -/
def Uses (V : Vocabulary) (x : Evaluation) : Prop := x.expr.Uses V ∧ x.store.Uses V

theorem Uses.exists_below {V : Vocabulary} {x : Evaluation} (uses : x.Uses V) :
    ∃ n, x.Uses (V.below n) := by
  obtain ⟨n, expr⟩ := uses.1.exists_below
  obtain ⟨m, store⟩ := uses.2.exists_below
  refine ⟨max n m, expr.below_of_le (Nat.le_max_left n m), fun c => ?_, fun u => ?_⟩
  · exact (store.1 c).below_of_le (Nat.le_max_right n m)
  · exact (store.2 u).below_of_le (Nat.le_max_right n m)

theorem uses_anything (x : Evaluation) : x.Uses {} :=
  ⟨x.expr.uses_anything, fun c => (x.store.definition c).uses_anything,
    fun u => (x.store.body u).uses_anything⟩

/-- Whether an evaluation comes before another one: there is less room for reads and calls, or as
    much and the expression is lighter. -/
def Less (n : Nat) (y x : Evaluation) : Prop :=
  Prod.Lex (· < ·) (· < ·) (y.store.room n, y.expr.weight) (x.store.room n, x.expr.weight)

theorem wellFounded_less (n : Nat) : WellFounded (Less n) :=
  InvImage.wf _ (wellFounded_lt.prod_lex wellFounded_lt)

theorem exists_needed_less {V : Vocabulary} {n : Nat} {x : Evaluation} (uses : x.Uses (V.below n))
    (endless : ¬ x.Ends) :
    ∃ y, y.Uses (V.below n) ∧ ¬ y.Ends ∧ x.Needs y ∧ (x.expr.dereferences ∨ Less n y x) := by
  let may (e : Expr) := x.expr.dereferences ∨ e.weight < x.expr.weight
  have given (r : Expr) (action : x.expr.isAction)
      (gives : (V.below n).invariant.Gives x.expr r) : may r := by
    by_cases opens : x.expr.opens
    · exact .inl (Bool.and_eq_true_iff.2 ⟨action, opens⟩)
    · exact .inr ((Expr.weight_of_gives gives opens).2 action)
  have asking : (V.below n).invariant.Asking may (fun _ => True) fun eval => x.expr.resolve eval :=
    .resolve (V.below n).kept uses.1 (fun _ part => .inr part.weight_lt) given
  obtain ⟨u, y, between, related, asked, endless, needs⟩ :=
    exists_needed (V.below n).kept asking uses.2 endless
  obtain ⟨inside, admitted⟩ := asked.keeps (V.below n).kept between
  refine ⟨y, ⟨admitted, inside⟩, endless, needs, ?_⟩
  have room := Store.room_of_sameCounts related n
  cases asked with
  | here _ asked =>
    refine asked.imp_right fun lighter => ?_
    rw [Less, room]
    exact .right _ lighter
  | read bounded space =>
    have smaller := Store.room_enterRead bounded.2 space
    exact .inr (.left _ _ (room ▸ smaller))
  | call arguments bounded space =>
    have smaller := Store.room_enterCall arguments (bounded.1 _ rfl).2 space
    exact .inr (.left _ _ (room ▸ smaller))

/-- Whether an evaluation needs a second one, that one a third and so on, with a dereference again
    and again. -/
def DereferencesForever (x : Evaluation) : Prop :=
  ∃ chain : Nat → Evaluation, chain 0 = x ∧ (∀ i, (chain i).Needs (chain (i + 1))) ∧
    ∀ i, ∃ j, i ≤ j ∧ (chain j).expr.dereferences

theorem exists_chain {V : Vocabulary} {x : Evaluation} (uses : x.Uses V) (endless : ¬ x.Ends) :
    ∃ chain : Nat → Evaluation, chain 0 = x ∧ (∀ i, (chain i).expr.Uses V) ∧
      (∀ i, (chain i).Needs (chain (i + 1))) ∧
      ∀ i, ∃ j, i ≤ j ∧ (chain j).expr.dereferences := by
  obtain ⟨n, uses⟩ := uses.exists_below
  choose next nextUses nextEndless needs descends using
    fun y : { y : Evaluation // y.Uses (V.below n) ∧ ¬ y.Ends } =>
      exists_needed_less y.2.1 y.2.2
  let chain (i : Nat) : { y : Evaluation // y.Uses (V.below n) ∧ ¬ y.Ends } :=
    i.rec ⟨x, uses, endless⟩ fun _ y => ⟨next y, nextUses y, nextEndless y⟩
  refine ⟨fun i => (chain i).1, rfl, fun i => (chain i).2.1.1.of_below,
    fun i => needs (chain i), fun i => ?_⟩
  by_contra never
  have less (k : Nat) : Less n (chain (i + k + 1)).1 (chain (i + k)).1 :=
    (descends (chain (i + k))).resolve_left fun dereferences =>
      never ⟨i + k, Nat.le_add_right i k, dereferences⟩
  have : IsWellFounded Evaluation (Less n) := ⟨wellFounded_less n⟩
  obtain ⟨k, notLess⟩ := WellFounded.not_rel_apply_succ (r := Less n) fun k => (chain (i + k)).1
  exact notLess (less k)

theorem ends_iff_not_dereferencesForever {x : Evaluation} :
    x.Ends ↔ ¬ x.DereferencesForever := by
  constructor
  · rintro ends ⟨chain, rfl, needs, _⟩
    exact not_ends_of_chain needs ends
  · intro finitely
    by_contra endless
    obtain ⟨chain, start, _, needs, again⟩ := exists_chain x.uses_anything endless
    exact finitely ⟨chain, start, needs, again⟩

theorem ends_of_uses_withoutDereference {x : Evaluation} (uses : x.Uses Expr.withoutDereference) :
    x.Ends := by
  by_contra endless
  obtain ⟨chain, _, uses, _, again⟩ := exists_chain uses endless
  obtain ⟨i, _, dereferences⟩ := again 0
  exact Expr.not_dereferences (uses i) dereferences

/-! ## Reads that lead back -/

/-- Whether an evaluation ends because a read or a call is under way too often. -/
def TooDeep (x : Evaluation) : Prop := ∃ name, x.FailsWith (.tooDeep name)

theorem TooDeep.of_transGen {x y : Evaluation} (needs : Relation.TransGen Needs x y)
    (tooDeep : y.TooDeep) : x.TooDeep := by
  obtain ⟨name, fails⟩ := tooDeep
  refine ⟨name, ?_⟩
  induction needs using Relation.TransGen.head_induction_on with
  | single needs => exact needs.failsWith fails
  | head needs _ inductionHypothesis => exact needs.failsWith inductionHypothesis

theorem eval_ne_none_of_transGen {x y : Evaluation} (needs : Relation.TransGen Needs x y)
    {budget : Nat} (ends : (x.expr.eval (budget + 1)).runOn x.store ≠ none) :
    (y.expr.eval budget).runOn y.store ≠ none := by
  induction needs using Relation.TransGen.head_induction_on with
  | single needs => exact needs.eval_ne_none ends
  | head needs _ inductionHypothesis =>
    obtain ⟨o, answered⟩ := Option.ne_none_iff_exists'.1 (needs.eval_ne_none ends)
    apply inductionHypothesis
    rw [Expr.eval_below_of_le (Nat.le_succ budget) _ _ _ answered]
    exact Option.some_ne_none o

theorem tooDeep_of_leads_back {P : Evaluation → Prop}
    (back : ∀ x, P x → x.TooDeep ∨ ∃ y, P y ∧ Relation.TransGen Needs x y)
    {x : Evaluation} (start : P x) : x.TooDeep ∨ x.DereferencesForever := by
  by_cases forever : x.DereferencesForever
  · exact .inr forever
  obtain ⟨budget, o, ends⟩ := ends_iff_not_dereferencesForever.2 forever
  have answered : (x.expr.eval budget).runOn x.store ≠ none := by
    rw [ends]
    exact Option.some_ne_none o
  clear ends forever
  refine .inl ?_
  induction budget generalizing x with
  | zero => exact absurd rfl answered
  | succ budget inductionHypothesis =>
    rcases back x start with tooDeep | ⟨y, again, needs⟩
    · exact tooDeep
    · exact .of_transGen needs (inductionHypothesis again (eval_ne_none_of_transGen needs answered))

end Evaluation

/-! ## Lines -/

namespace Session

theorem runExpr_eq_none_iff {s : Session} {e : Expr} {budget : Nat} :
    s.runExpr budget e = none ↔ (e.eval budget).runOn s.store = none := by
  unfold runExpr Session.evaluate
  rcases (e.eval budget).runOn s.store with _ | ⟨_ | v, t⟩ <;> simp

theorem run_eq_none_iff {s : Session} {line : String} {budget : Nat} :
    s.run budget line = none ↔ s.command? line = none ∧
      ∃ e t, s.parse line = .ok (some e, t) ∧ (e.eval budget).runOn t.store = none := by
  unfold run
  cases s.command? line with
  | some text =>
    simp only [reduceCtorEq, false_and, iff_false]
    split <;> exact Option.some_ne_none _
  | none =>
    rcases s.parse line with _ | ⟨_ | e, t⟩
    · simp
    · simp
    · constructor
      · intro unanswered
        exact ⟨rfl, e, t, rfl, runExpr_eq_none_iff.1 unanswered⟩
      · rintro ⟨_, _, _, same, unanswered⟩
        cases same
        exact runExpr_eq_none_iff.2 unanswered

/-- Running a line ends with some budget unless its expression dereferences forever. -/
theorem run_ends_iff {s : Session} {line : String} :
    (∃ budget, s.run budget line ≠ none) ↔ ∀ e t, s.command? line = none →
      s.parse line = .ok (some e, t) → ¬ (Evaluation.mk e t.store).DereferencesForever := by
  constructor
  · rintro ⟨budget, answered⟩ e t notCommand parsed
    rw [← Evaluation.ends_iff_not_dereferencesForever]
    have enough : (e.eval budget).runOn t.store ≠ none := fun unanswered =>
      answered (run_eq_none_iff.2 ⟨notCommand, e, t, parsed, unanswered⟩)
    obtain ⟨o, ends⟩ := Option.ne_none_iff_exists'.1 enough
    exact ⟨budget, o, ends⟩
  · intro finitely
    by_contra never
    have unanswered (budget : Nat) : s.run budget line = none := by
      by_contra answered
      exact never ⟨budget, answered⟩
    obtain ⟨notCommand, e, t, parsed, _⟩ := run_eq_none_iff.1 (unanswered 0)
    obtain ⟨budget, o, ends⟩ :=
      Evaluation.ends_iff_not_dereferencesForever.2 (finitely e t notCommand parsed)
    obtain ⟨_, e', t', parsed', endless⟩ := run_eq_none_iff.1 (unanswered budget)
    cases parsed.symm.trans parsed'
    cases ends.symm.trans endless

end Session

namespace Evaluation

/-! ## Main result -/

/-- An evaluation ends exactly if it does not dereference forever, and so does a line; without the
    modifier that takes a definition everything ends; and evaluations that lead back to each other
    end because a read or a call is too deep, unless they dereference forever. -/
theorem ends_unless_dereferencing_forever (session : Session) (line : String) (x : Evaluation)
    (P : Evaluation → Prop) :
    ((∃ budget, session.run budget line ≠ none) ↔
      ∀ e t, session.command? line = none → session.parse line = .ok (some e, t) →
        ¬ (Evaluation.mk e t.store).DereferencesForever) ∧
    (x.Ends ↔ ¬ x.DereferencesForever) ∧
    (x.Uses Expr.withoutDereference → x.Ends) ∧
    ((∀ y, P y → y.TooDeep ∨ ∃ z, P z ∧ Relation.TransGen Needs y z) →
      P x → x.TooDeep ∨ x.DereferencesForever) :=
  ⟨Session.run_ends_iff, ends_iff_not_dereferencesForever, ends_of_uses_withoutDereference,
    fun back start => tooDeep_of_leads_back back start⟩

/-- A cell with the definition `a + 1` of its own. -/
theorem self_reading_cell_is_too_deep :
    let a : Cell := ⟨0, "a", .variable⟩
    let sum : Expr := .binary ⟨"+", .combine .add⟩ (.cell a) (.literal (some (.integer 1)))
    TooDeep ⟨.cell a, Store.define {} a sum⟩ := by
  intro a sum
  have back (x : Evaluation) (start : ∃ s, x = ⟨.cell a, s⟩ ∧ s.definition a = sum) :
      x.TooDeep ∨ ∃ y, (∃ s, y = ⟨.cell a, s⟩ ∧ s.definition a = sum) ∧
        Relation.TransGen Needs x y := by
    obtain ⟨s, rfl, definition⟩ := start
    rcases Nat.lt_or_ge (s.readDepth a) readLimit with space | full
    · have first := needs_definition space
      rw [definition] at first
      have second := needs_left (o := ⟨"+", .combine .add⟩) rfl (.cell a)
        (.literal (some (.integer 1))) (s.enterRead a)
      exact .inr ⟨_, ⟨s.enterRead a, rfl, definition⟩, .tail (.single first) second⟩
    · refine .inl ⟨a.name, 1, s, ?_⟩
      change (reading a _).runOn s = _
      rw [runOn_reading, if_pos full]
  have plain : Uses Expr.withoutDereference ⟨.cell a, Store.define {} a sum⟩ := by
    have empty : Store.Uses Expr.withoutDereference {} := ⟨fun _ => True.intro, fun _ => True.intro⟩
    exact ⟨True.intro, empty.define ⟨True.intro, True.intro⟩⟩
  obtain ⟨-, exactly, always, leads⟩ :=
    ends_unless_dereferencing_forever (Session.start Grammar.standard) "" ⟨.cell a, _⟩ _
  exact (leads back ⟨_, rfl, rfl⟩).resolve_right (exactly.1 (always plain))

end Evaluation

/-! ## A definition that dereferences itself -/

/-- Whether an expression first of all dereferences a given cell. -/
def Expr.dereferencesFirst (c : Cell) : Expr → Bool
  | .binary o (.unary m (.cell d)) _ =>
    o.action.strictness.evaluatesLeft && m.isDeferred && d = c
  | _ => false

namespace Evaluation

theorem Expr.exists_of_dereferencesFirst {c : Cell} {e : Expr} (first : e.dereferencesFirst c) :
    ∃ o m right, e = .binary o (.unary m (.cell c)) right ∧
      o.action.strictness.evaluatesLeft ∧ m.action = .definition := by
  unfold Expr.dereferencesFirst at first
  split at first
  · rename_i o m d right
    simp only [Bool.and_eq_true, decide_eq_true_eq] at first
    obtain ⟨⟨eager, deferred⟩, rfl⟩ := first
    refine ⟨o, m, right, rfl, eager, ?_⟩
    unfold Modifier.isDeferred at deferred
    cases action : m.action with
    | definition => rfl
    | transform rule | increase amount => simp [action, Modifier.Action.strictness] at deferred
  · cases first

theorem not_ends_of_dereferencesFirst {c : Cell} {s : Store} (space : s.readDepth c < readLimit)
    (first : (s.definition c).dereferencesFirst c) : ¬ Ends ⟨.cell c, s⟩ := by
  obtain ⟨o, m, right, definition, eager, action⟩ := Expr.exists_of_dereferencesFirst first
  let sum : Expr := .binary o (.unary m (.cell c)) right
  let inside := s.enterRead c
  refine not_ends_of_needs (P := fun x =>
    x = ⟨.cell c, s⟩ ∨ x = ⟨sum, inside⟩ ∨ x = ⟨.unary m (.cell c), inside⟩) ?_ (.inl rfl)
  rintro x (rfl | rfl | rfl)
  · have needs := needs_definition space
    rw [definition] at needs
    exact ⟨_, .inr (.inl rfl), needs⟩
  · exact ⟨_, .inr (.inr rfl), needs_left eager _ right inside⟩
  · have needs := needs_dereferenced action c inside
    have same : inside.definition c = sum := definition
    rw [same] at needs
    exact ⟨_, .inr (.inl rfl), needs⟩

end Evaluation

namespace Session

def dereferencesItself (s : Session) (line : String) : Bool :=
  (s.command? line).isNone &&
    match s.parse line with
    | .ok (some (.cell c), t) =>
      (t.store.definition c).dereferencesFirst c && t.store.readDepth c < readLimit
    | _ => false

theorem run_eq_none_of_dereferencesItself {s : Session} {line : String}
    (itself : s.dereferencesItself line) (budget : Nat) : s.run budget line = none := by
  obtain ⟨notCommand, itself⟩ := Bool.and_eq_true_iff.1 itself
  split at itself
  · rename_i c t parsed
    obtain ⟨first, space⟩ := Bool.and_eq_true_iff.1 itself
    have endless := Evaluation.not_ends_of_dereferencesFirst (of_decide_eq_true space) first
    refine run_eq_none_iff.2 ⟨Option.isNone_iff_eq_none.1 notCommand, _, t, parsed, ?_⟩
    exact Expr.evaluate_eq_none_iff.1 (Evaluation.not_ends_iff.1 endless) budget
  · cases itself

/-- After the line `x := $x + 1` the line `x` does not end with any budget. -/
theorem self_dereferencing_line_never_ends :
    ∃ s, ((Session.start Grammar.standard).run 8 "x := $x + 1").map Prod.snd = some s ∧
      ∀ budget, s.run budget "x" = none := by
  have computed : (((Session.start Grammar.standard).run 8 "x := $x + 1").map Prod.snd).any
      (·.dereferencesItself "x") := by
    decide +kernel
  obtain ⟨s, ran, itself⟩ := (Option.any_eq_true _ _).1 computed
  exact ⟨s, ran, run_eq_none_of_dereferencesItself itself⟩

end Session

end Abacus
