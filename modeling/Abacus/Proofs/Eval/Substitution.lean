import Abacus.Proofs.Eval.Simulation

/-!
# Substitution

A call of a function comes to its body with the arguments put in for the parameters, if the body
treats the parameters as values: it neither changes them nor binds anything, and nothing else
mentions them.  All calls of the function share the cells of its parameters, so this rests on every
call binding them anew and giving them back.
-/

namespace Abacus

open Eval

namespace Expr

mutual

/-- An expression with what a list of bindings gives its cells in their place. -/
def instantiate (bindings : List (Cell × Expr)) : Expr → Expr
  | .literal v => .literal v
  | .cell c => (Store.given bindings c).getD (.cell c)
  | .binary o l r => .binary o (l.instantiate bindings) (r.instantiate bindings)
  | .unary m e => .unary m (e.instantiate bindings)
  | .call f es => .call f (instantiateAll bindings es)
  | .parens inner => .parens (inner.instantiate bindings)
  | .branches a b => .branches (a.instantiate bindings) (b.instantiate bindings)

def instantiateAll (bindings : List (Cell × Expr)) : List Expr → List Expr
  | [] => []
  | e :: rest => e.instantiate bindings :: instantiateAll bindings rest

end

theorem length_instantiateAll (bindings : List (Cell × Expr)) (es : List Expr) :
    (instantiateAll bindings es).length = es.length := by
  induction es with
  | nil => rfl
  | cons e rest inductionHypothesis =>
    rw [instantiateAll, List.length_cons, List.length_cons, inductionHypothesis]

mutual

@[simp] theorem instantiate_nil : ∀ e : Expr, e.instantiate [] = e
  | .literal _ | .cell _ => rfl
  | .binary _ l r => by rw [instantiate, instantiate_nil l, instantiate_nil r]
  | .unary _ e => by rw [instantiate, instantiate_nil e]
  | .call _ es => by rw [instantiate, instantiateAll_nil es]
  | .parens inner => by rw [instantiate, instantiate_nil inner]
  | .branches a b => by rw [instantiate, instantiate_nil a, instantiate_nil b]

theorem instantiateAll_nil : ∀ es : List Expr, instantiateAll [] es = es
  | [] => rfl
  | e :: rest => by rw [instantiateAll, instantiate_nil e, instantiateAll_nil rest]

end

/-! ## Substitution as a simplification -/

section

variable {how : Simplification} {lending : Lending} {bindings : List (Cell × Expr)}

/-- What is asked of every expression inside of one that is simplified by a substitution. -/
def Suits (how : Simplification) (lending : Lending) (bindings : List (Cell × Expr)) :
    Expr → Prop
  | .cell c => Simplifies how lending (.cell c) (instantiate bindings (.cell c))
  | .binary o l _ => (o.changes → how.Spares l) ∧ (o.binds → lending = .absent)
  | .unary m e => m.changes → how.Spares e
  | .call f _ => ∀ u, f = .user u → how.Knows u
  | .parens _ => how ≠ .unwrapping
  | .literal _ | .branches _ _ => True

mutual

theorem simplifies_instantiate : ∀ e : Expr,
    (∀ x ∈ e.subexpressions, x.Suits how lending bindings) →
    Simplifies how lending e (e.instantiate bindings)
  | .literal v, _ => .literal v
  | .cell _, suits => suits _ List.mem_cons_self
  | .binary o l r, suits => by
    rw [subexpressions, List.forall_mem_cons, List.forall_mem_append] at suits
    obtain ⟨⟨spares, absent⟩, left, right⟩ := suits
    have rights := simplifies_instantiate r right
    exact .binary spares (fun binds => absent binds ▸ rights) (simplifies_instantiate l left) rights
  | .unary _ e, suits => by
    rw [subexpressions, List.forall_mem_cons] at suits
    exact .unary suits.1 (simplifies_instantiate e suits.2)
  | .call _ es, suits => by
    rw [subexpressions, List.forall_mem_cons] at suits
    exact .call suits.1 (length_instantiateAll bindings es).symm
      (simplifies_instantiateAll es suits.2)
  | .parens inner, suits => by
    rw [subexpressions, List.forall_mem_cons] at suits
    exact .parens suits.1 (simplifies_instantiate inner suits.2)
  | .branches a b, suits => by
    rw [subexpressions, List.forall_mem_cons, List.forall_mem_append] at suits
    exact .branches (simplifies_instantiate a suits.2.1) (simplifies_instantiate b suits.2.2)

theorem simplifies_instantiateAll : ∀ es : List Expr,
    (∀ x ∈ subexpressionsAll es, x.Suits how lending bindings) →
    ∀ i (left : i < es.length) (right : i < (instantiateAll bindings es).length),
      Simplifies how lending es[i] (instantiateAll bindings es)[i]
  | [], _, _, left, _ => nomatch left
  | e :: _, suits, 0, _, _ =>
    simplifies_instantiate e (List.forall_mem_append.1 suits).1
  | _ :: rest, suits, i + 1, left, right =>
    simplifies_instantiateAll rest (List.forall_mem_append.1 suits).2 i
      (Nat.lt_of_succ_lt_succ left) (Nat.lt_of_succ_lt_succ right)

end

end

theorem Simplifies.eq_of_absent {u : UserFunction} {e e' : Expr}
    (same : Simplifies (.substituting u) .absent e e') : e' = e := by
  generalize absent : Lending.absent = lending at same
  induction same with
  | literal _ | cell _ => rfl
  | replaced _ _ _ => cases absent
  | binary _ _ _ _ _ left right => rw [left absent, right absent]
  | unary _ _ inner => rw [inner absent]
  | call _ length _ arguments =>
    exact congrArg _ (List.ext_getElem length.symm fun i right left =>
      arguments i left right absent)
  | branches _ _ whenTrue whenFalse => rw [whenTrue absent, whenFalse absent]
  | parens _ _ inner => rw [inner absent]
  | unwrapped drops _ _ _ => cases drops

end Expr

/-! ## Functions whose parameters are values -/

namespace UserFunction

/-- Whether an expression is a parameter of a function, seen through parentheses. -/
def IsParameter (u : UserFunction) (e : Expr) : Prop := ∃ c, e.unwrapped = .cell c ∧ u.Borrows c

/-- Whether a parameter of a function occurs in an expression. -/
def OccursIn (u : UserFunction) (e : Expr) : Prop := ∃ c, .cell c ∈ e.subexpressions ∧ u.Borrows c

/-- Whether an expression calls no other function under the number of a function. -/
def AloneIn (u : UserFunction) (e : Expr) : Prop :=
  ∀ w es, .call (.user w) es ∈ e.subexpressions → w.id = u.id → w = u

/-- Whether the body of a function treats its parameters as values and nothing else mentions
    them. -/
structure TakesValues (u : UserFunction) (s : Store) : Prop where
  /-- The body binds no name. -/
  binding : ∀ o l r, .binary o l r ∈ (s.body u).subexpressions → o.binds = false
  /-- No parameter is assigned to or updated. -/
  operator : ∀ o l r, .binary o l r ∈ (s.body u).subexpressions → o.changes → ¬ u.IsParameter l
  /-- No parameter is increased. -/
  modifier : ∀ m e, .unary m e ∈ (s.body u).subexpressions → m.changes → ¬ u.IsParameter e
  definition : ∀ c, ¬ u.OccursIn (s.definition c)
  body : ∀ w : UserFunction, w.id ≠ u.id → ¬ u.OccursIn (s.body w)

end UserFunction

/-- Whether the number of a function stands for it alone, as it does in all sessions. -/
def Store.Identifies (s : Store) (u : UserFunction) : Prop :=
  (∀ c, u.AloneIn (s.definition c)) ∧ ∀ w, u.AloneIn (s.body w)

namespace UserFunction

variable {u : UserFunction} {s : Store}

theorem simplifies_absent {e : Expr} (other : ¬ u.OccursIn e) (alone : u.AloneIn e) :
    Expr.Simplifies (.substituting u) .absent e e := by
  suffices same : Expr.Simplifies (.substituting u) .absent e (e.instantiate []) by
    rwa [Expr.instantiate_nil] at same
  refine Expr.simplifies_instantiate e fun x member => ?_
  -- A target is a cell inside of the expression too, so it is no parameter.
  have spares {target : Expr} (among : target ∈ x.subexpressions) :
      Simplification.Spares (.substituting u) target := fun c isCell lent => by
    have inside := Expr.mem_subexpressions_trans target.unwrapped_mem_subexpressions
      (Expr.mem_subexpressions_trans among member)
    exact other ⟨c, isCell ▸ inside, lent⟩
  cases x with
  | literal _ | branches _ _ => exact True.intro
  | cell c => exact .cell fun lent => absurd ⟨c, member, lent⟩ other
  | binary o l r =>
    have left : l ∈ (Expr.binary o l r).subexpressions :=
      List.mem_cons_of_mem _ (List.mem_append_left _ l.mem_subexpressions_self)
    exact ⟨fun _ => spares left, fun _ => rfl⟩
  | unary m e =>
    have operand : e ∈ (Expr.unary m e).subexpressions :=
      List.mem_cons_of_mem _ e.mem_subexpressions_self
    exact fun _ => spares operand
  | call f es => exact fun w same => alone w es (same ▸ member)
  | parens _ => exact Simplification.noConfusion

/-- The body of a function that treats its parameters as values can be simplified in every way in
    which the parameters can be. -/
theorem TakesValues.simplifies_body (takes : u.TakesValues s) (alone : u.AloneIn (s.body u))
    {lending : Lending} {bindings : List (Cell × Expr)}
    (cells : ∀ c, Expr.Simplifies (.substituting u) lending (.cell c)
      (Expr.instantiate bindings (.cell c))) :
    Expr.Simplifies (.substituting u) lending (s.body u) ((s.body u).instantiate bindings) := by
  refine Expr.simplifies_instantiate _ fun x member => ?_
  cases x with
  | literal _ | branches _ _ => exact True.intro
  | cell c => exact cells c
  | binary o l r =>
    refine ⟨fun changes c isCell lent => ?_, fun binds => ?_⟩
    · exact takes.operator o l r member changes ⟨c, isCell, lent⟩
    · rw [takes.binding o l r member] at binds
      cases binds
  | unary m e =>
    intro changes c isCell lent
    exact takes.modifier m e member changes ⟨c, isCell, lent⟩
  | call f es => exact fun w same => alone w es (same ▸ member)
  | parens _ => exact Simplification.noConfusion

theorem TakesValues.simplifies_shared (takes : u.TakesValues s) (alone : u.AloneIn (s.body u)) :
    Expr.Simplifies (.substituting u) .shared (s.body u) (s.body u) := by
  suffices same : Expr.Simplifies (.substituting u) .shared (s.body u)
      ((s.body u).instantiate []) by
    rwa [Expr.instantiate_nil] at same
  exact takes.simplifies_body alone fun c => .cell fun _ => rfl

theorem simplifies_argument {arguments : List Value}
    (count : arguments.length = u.parameters.length) (c : Cell) :
    Expr.Simplifies (.substituting u) (.replaced (u.parameters.zip (arguments.map Expr.literal)))
      (.cell c) (Expr.instantiate (u.parameters.zip (arguments.map Expr.literal)) (.cell c)) := by
  rw [Expr.instantiate]
  by_cases lent : u.Borrows c
  · obtain ⟨v, given⟩ := Store.exists_given_arguments count lent
    rw [given]
    exact .replaced lent given rfl
  · rw [Store.given_eq_none fun pair member same =>
      lent ⟨pair.1, (List.of_mem_zip member).1, same⟩]
    exact .cell fun borrowed => absurd borrowed lent

theorem TakesValues.simplifies_enterCall (takes : u.TakesValues s) (identified : s.Identifies u)
    (arguments : List Value) :
    Store.Simplifies (.substituting u) ⟨(enterCall s u arguments).definition, s.definition⟩
      (enterCall s u arguments) s where
  definition c free := by
    rw [definition_enterCall_of_not_borrows free]
    exact simplifies_absent (takes.definition c) (identified.1 c)
  original _ _ := rfl
  simplified _ _ := rfl
  body w known := by
    rw [body_enterCall]
    show Expr.Simplifies _ (if w = u then .shared else .absent) (s.body w) (s.body w)
    split
    · rename_i own
      rw [own]
      exact takes.simplifies_shared (identified.2 u)
    · rename_i other
      exact simplifies_absent (takes.body w fun same => other (known same)) (identified.2 w)
  readDepth c := by
    rw [readDepth_enterCall]
    exact Nat.le_refl _
  callDepth w := by
    show s.callDepth w ≤ (enterCall s u arguments).callDepth w
    rw [callDepth_enterCall]
    split
    · rename_i same
      have depth : s.callDepth w = s.callDepth u := by rw [Store.callDepth, Store.callDepth, same]
      omega
    · exact Nat.le_refl _

/-! ## Main result -/

/-- If a call gives a value, the body with the arguments put in for the parameters gives the same
    value in the store before the call, and all cells stand for the same in the end. -/
theorem TakesValues.substitutes (takes : u.TakesValues s) (identified : s.Identifies u)
    {arguments : List Value} (count : arguments.length = u.parameters.length) {budget : Nat}
    {v : Value} {t : Store}
    (ends : ((Function.user u).call (Expr.eval budget) arguments).runOn s = some (.ok v, t)) :
    ∃ t', (((s.body u).instantiate (u.parameters.zip (arguments.map Expr.literal))).eval
        budget).runOn s = some (.ok v, t') ∧ ∀ c, t'.definition c = t.definition c := by
  rw [Function.call_user count, runOn_calling] at ends
  split at ends
  · cases ends
  · obtain ⟨⟨r, inside⟩, runs, same⟩ := Option.map_eq_some_iff.1 ends
    cases same
    rw [runOn_bind_ok (runOn_get _), body_enterCall] at runs
    let bindings := u.parameters.zip (arguments.map Expr.literal)
    let loan : Loan := ⟨(enterCall s u arguments).definition, s.definition⟩
    have fits : loan.Fits (.substituting u) (.replaced bindings) := fun c w _ given => by
      show (enterCall s u arguments).definition c = _
      rw [definition_enterCall, given]
      rfl
    have body := takes.simplifies_body (identified.2 u) (simplifies_argument count)
    have entered := takes.simplifies_enterCall identified arguments
    have simulates := (Expr.eval_simulating (.substituting u) budget).simulates fits body
    rcases simulates _ _ entered with ⟨_, noValue⟩ | agree
    · exact absurd runs (noValue v inside)
    · rw [runs] at agree
      generalize (((s.body u).instantiate bindings).eval budget).runOn s = outcome at agree ⊢
      cases agree with
      | @value _ _ _ t' equal after =>
        cases equal
        refine ⟨t', rfl, fun c => ?_⟩
        rw [definition_leaveCall]
        split
        · rename_i lent
          exact after.simplified c lent
        · rename_i free
          exact (after.definition c free).eq_of_absent

end UserFunction

end Abacus
