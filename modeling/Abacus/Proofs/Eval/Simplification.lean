import Abacus.Proofs.Eval.Borrowing
import Abacus.Proofs.Expr.Parts

/-!
# Simplified expressions

Two simplifications that evaluations do not notice: all parentheses are dropped, or the
parameters of a function are replaced by the arguments of a call.  In the second case the cells
of the parameters are lent to the call, and the simplified expression does without them.  Another
call of the function borrows them again, so it is the same in both stores while it lasts.
-/

namespace Abacus

open Eval

/-- A way to simplify expressions. -/
inductive Simplification where
  /-- All parentheses are dropped. -/
  | unwrapping
  /-- The parameters of a function are replaced by the arguments of a call. -/
  | substituting (callee : UserFunction)

/-- What an expression and a simplified one have to do with lent cells. -/
inductive Lending where
  /-- Neither mentions them. -/
  | absent
  /-- Both may mention them, and they stand for the same values. -/
  | shared
  /-- The simplified expression has literals in their place. -/
  | replaced (bindings : List (Cell × Expr))

namespace Simplification

def Lends : Simplification → Cell → Prop
  | .unwrapping, _ => False
  | .substituting callee, c => callee.Borrows c

/-- Whether an expression is no lent cell, seen through parentheses, so that it can be changed. -/
def Spares (how : Simplification) (e : Expr) : Prop := ∀ c, e.unwrapped = .cell c → ¬ how.Lends c

/-- Whether a function with the number of the callee is the callee. -/
def Knows : Simplification → UserFunction → Prop
  | .unwrapping, _ => True
  | .substituting callee, u => u.id = callee.id → u = callee

/-- What the body of a function has to do with lent cells. -/
def lending : Simplification → UserFunction → Lending
  | .unwrapping, _ => .absent
  | .substituting callee, u => if u = callee then .shared else .absent

/-- How many reads or calls are under way.  There are fewer where a call has been replaced by a
    simplified expression. -/
def Counts : Simplification → Nat → Nat → Prop
  | .unwrapping, n, n' => n' = n
  | .substituting _, n, n' => n' ≤ n

variable {how : Simplification} {n n' : Nat}

theorem Counts.le (counts : how.Counts n n') : n' ≤ n := by
  cases how with
  | unwrapping => exact Nat.le_of_eq counts
  | substituting callee => exact counts

theorem Counts.succ (counts : how.Counts n n') : how.Counts (n + 1) (n' + 1) := by
  cases how with
  | unwrapping => exact congrArg (· + 1) counts
  | substituting callee => exact Nat.succ_le_succ counts

theorem Counts.pred (counts : how.Counts n n') : how.Counts (n - 1) (n' - 1) := by
  cases how with
  | unwrapping => exact congrArg (· - 1) counts
  | substituting callee => exact Nat.sub_le_sub_right counts 1

end Simplification

def Operator.changes (o : Operator) : Bool :=
  match o.action with
  | .assign | .bind | .update _ => true
  | _ => false

def Modifier.changes (m : Modifier) : Bool :=
  match m.action with
  | .increase _ => true
  | _ => false

/-! ## Expressions -/

namespace Expr

def isPair : Expr → Bool
  | .branches _ _ => true
  | _ => false

theorem isPair_of_unwrapped {e : Expr} (single : e.unwrapped.isPair = false) :
    e.isPair = false := by
  cases e with
  | branches _ _ => exact single
  | _ => rfl

/-- Expressions of which the second is simplified. -/
inductive Simplifies (how : Simplification) : Lending → Expr → Expr → Prop where
  | literal {lending : Lending} (v : Value) : Simplifies how lending (.literal v) (.literal v)
  | cell {lending : Lending} {c : Cell} : (how.Lends c → lending = .shared) →
      Simplifies how lending (.cell c) (.cell c)
  | replaced {bindings : List (Cell × Expr)} {c : Cell} {v : Value} {e : Expr} : how.Lends c →
      Store.given bindings c = some (.literal v) → e.unwrapped = .cell c →
      Simplifies how (.replaced bindings) e (.literal v)
  /-- What a binding stores must not mention lent cells. -/
  | binary {lending : Lending} {o : Operator} {l l' r r' : Expr} : (o.changes → how.Spares l) →
      (o.binds → Simplifies how .absent r r') → Simplifies how lending l l' →
      Simplifies how lending r r' → Simplifies how lending (.binary o l r) (.binary o l' r')
  | unary {lending : Lending} {m : Modifier} {e e' : Expr} : (m.changes → how.Spares e) →
      Simplifies how lending e e' → Simplifies how lending (.unary m e) (.unary m e')
  | call {lending : Lending} {f : Function} {es es' : List Expr} :
      (∀ u, f = .user u → how.Knows u) → es.length = es'.length →
      (∀ i (left : i < es.length) (right : i < es'.length), Simplifies how lending es[i] es'[i]) →
      Simplifies how lending (.call f es) (.call f es')
  | branches {lending : Lending} {a a' b b' : Expr} : Simplifies how lending a a' →
      Simplifies how lending b b' → Simplifies how lending (.branches a b) (.branches a' b')
  | parens {lending : Lending} {e e' : Expr} : how ≠ .unwrapping → Simplifies how lending e e' →
      Simplifies how lending (.parens e) (.parens e')
  /-- Parentheses around a pair of branches would hide it from a condition. -/
  | unwrapped {lending : Lending} {e e' : Expr} : how = .unwrapping → e.isPair = false →
      Simplifies how lending e e' → Simplifies how lending (.parens e) e'

namespace Simplifies

variable {how : Simplification} {lending : Lending} {e e' : Expr}

theorem isPair (same : Simplifies how lending e e') : e'.isPair = e.isPair := by
  induction same with
  | replaced _ _ isCell => exact (isPair_of_unwrapped (by rw [isCell]; rfl)).symm
  | unwrapped _ single _ inner => exact inner.trans single
  | _ => rfl

theorem isVariable (same : Simplifies how lending e e') (spares : how.Spares e) :
    e'.isVariable = e.isVariable := by
  induction same with
  | replaced lent _ isCell => exact absurd lent (spares _ isCell)
  | parens _ _ inner => exact inner spares
  | unwrapped _ _ _ inner => exact inner spares
  | _ => rfl

/-- An expression that does not mention lent cells can be evaluated wherever they are lent. -/
theorem weaken (same : Simplifies how .absent e e') (lending : Lending) :
    Simplifies how lending e e' := by
  generalize absent : Lending.absent = anywhere at same
  induction same with
  | literal v => exact .literal v
  | cell known => exact .cell fun lent => nomatch absent.trans (known lent)
  | replaced _ _ _ => cases absent
  | binary spares binding left right _ inLeft inRight =>
    exact .binary spares (fun _ => absent ▸ right) (inLeft absent) (inRight absent)
  | unary spares _ inner => exact .unary spares (inner absent)
  | call known length _ arguments =>
    exact .call known length fun i left right => arguments i left right absent
  | branches _ _ whenTrue whenFalse => exact .branches (whenTrue absent) (whenFalse absent)
  | parens kept _ inner => exact .parens kept (inner absent)
  | unwrapped drops single _ inner => exact .unwrapped drops single (inner absent)

/-- A lent cell with a literal in its place, both seen through parentheses. -/
def Replaces (how : Simplification) (lending : Lending) (e e' : Expr) : Prop :=
  ∃ bindings c v, lending = .replaced bindings ∧ how.Lends c ∧
    Store.given bindings c = some (.literal v) ∧ e.unwrapped = .cell c ∧ e'.unwrapped = .literal v

theorem isInert (same : Simplifies how lending e e') :
    e'.isInert = e.isInert ∨ Replaces how lending e e' := by
  induction same with
  | replaced lent given isCell => exact .inr ⟨_, _, _, rfl, lent, given, isCell, rfl⟩
  | parens _ _ inner => exact inner
  | unwrapped _ _ _ inner => exact inner
  | _ => exact .inl rfl

theorem isInert_of_unwrapping (same : Simplifies .unwrapping lending e e') :
    e'.isInert = e.isInert := by
  rcases same.isInert with equal | ⟨_, _, _, _, lent, _⟩
  · exact equal
  · cases lent

theorem frozenValue_of_unwrapping (same : Simplifies .unwrapping lending e e') :
    e'.frozenValue = e.frozenValue := by
  suffices literal : e'.literal? = e.literal? from congrArg (Option.getD · none) literal
  induction same with
  | replaced lent _ _ => cases lent
  | parens kept _ _ => exact absurd rfl kept
  | unwrapped _ _ _ inner => exact inner
  | _ => rfl

theorem branches_or_single (same : Simplifies how lending e e') :
    (∃ a b a' b', e = .branches a b ∧ e' = .branches a' b' ∧ Simplifies how lending a a' ∧
      Simplifies how lending b b') ∨ e.isPair = false ∧ e'.isPair = false := by
  cases pair : e.isPair with
  | false => exact .inr ⟨rfl, same.isPair.trans pair⟩
  | true =>
    cases same with
    | branches whenTrue whenFalse => exact .inl ⟨_, _, _, _, rfl, rfl, whenTrue, whenFalse⟩
    | replaced _ _ isCell =>
      exact Bool.noConfusion (pair.symm.trans (isPair_of_unwrapped (by rw [isCell]; rfl)))
    | _ => cases pair

end Simplifies

end Expr

/-! ## Stores -/

/-- What lent cells stand for in both stores, as long as they are lent. -/
structure Loan where
  original : Cell → Expr
  simplified : Cell → Expr

/-- While a function is called, its parameters stand for the arguments in both stores. -/
def Loan.ofCall (s s' : Store) (u : UserFunction) (arguments : List Value) : Loan :=
  ⟨(enterCall s u arguments).definition, (enterCall s' u arguments).definition⟩

/-- Whether lent cells stand for what expressions expect of them. -/
def Loan.Fits (loan : Loan) (how : Simplification) : Lending → Prop
  | .absent => True
  | .shared => ∀ c, how.Lends c →
      ∃ v, loan.original c = .literal v ∧ loan.simplified c = .literal v
  | .replaced bindings => ∀ c v, how.Lends c → Store.given bindings c = some (.literal v) →
      loan.original c = .literal v

/-- Stores of which the second is simplified. -/
structure Store.Simplifies (how : Simplification) (loan : Loan) (s s' : Store) : Prop where
  definition (c : Cell) : ¬ how.Lends c →
    Expr.Simplifies how .absent (s.definition c) (s'.definition c)
  original (c : Cell) : how.Lends c → s.definition c = loan.original c
  simplified (c : Cell) : how.Lends c → s'.definition c = loan.simplified c
  body (u : UserFunction) : how.Knows u →
    Expr.Simplifies how (how.lending u) (s.body u) (s'.body u)
  readDepth (c : Cell) : how.Counts (s.readDepth c) (s'.readDepth c)
  callDepth (u : UserFunction) : how.Counts (s.callDepth u) (s'.callDepth u)

namespace Store.Simplifies

variable {how : Simplification} {loan : Loan} {s s' t t' : Store}

theorem define (same : Store.Simplifies how loan s s') {c : Cell} (spared : ¬ how.Lends c)
    {e e' : Expr} (definition : Expr.Simplifies how .absent e e') :
    Store.Simplifies how loan (s.define c e) (s'.define c e') := by
  have other {d : Cell} (lent : how.Lends d) : c.id ≠ d.id := by
    intro number
    cases how with
    | unwrapping => exact lent
    | substituting callee =>
      obtain ⟨p, parameter, same⟩ := lent
      exact spared ⟨p, parameter, same.trans number.symm⟩
  refine { same with
    definition := fun d free => ?_
    original := fun d lent => ?_
    simplified := fun d lent => ?_ }
  · rw [definition_define, definition_define]
    split
    · exact definition
    · exact same.definition d free
  · rw [definition_define, if_neg (other lent)]
    exact same.original d lent
  · rw [definition_define, if_neg (other lent)]
    exact same.simplified d lent

/-! ### Counted reads -/

theorem enterRead (same : Store.Simplifies how loan s s') (c : Cell) :
    Store.Simplifies how loan (s.enterRead c) (s'.enterRead c) :=
  { same with
    readDepth := fun d => by
      rw [readDepth_enterRead, readDepth_enterRead]
      split
      · exact (same.readDepth c).succ
      · exact same.readDepth d }

theorem leaveRead (same : Store.Simplifies how loan s s') (c : Cell) :
    Store.Simplifies how loan (s.leaveRead c) (s'.leaveRead c) :=
  { same with
    readDepth := fun d => by
      rw [readDepth_leaveRead, readDepth_leaveRead]
      split
      · exact (same.readDepth c).pred
      · exact same.readDepth d }

theorem afterRead (same : Store.Simplifies how loan s s') (c : Cell) :
    Store.Simplifies how loan ((s.enterRead c).leaveRead c) s' :=
  { same with
    readDepth := fun d => by
      rw [readDepth_leaveRead_enterRead]
      exact same.readDepth d }

/-! ### Counted calls -/

theorem enterCall (same : Store.Simplifies how loan s s') (u : UserFunction)
    (arguments : List Value) :
    Store.Simplifies how (.ofCall s s' u arguments) (Eval.enterCall s u arguments)
      (Eval.enterCall s' u arguments) where
  definition c free := by
    rw [definition_enterCall, definition_enterCall]
    cases given : Store.given (u.parameters.zip (arguments.map Expr.literal)) c with
    | none => exact same.definition c free
    | some e =>
      obtain ⟨v, rfl⟩ := exists_literal_of_given given
      exact .literal v
  original _ _ := rfl
  simplified _ _ := rfl
  body w known := by
    rw [body_enterCall, body_enterCall]
    exact same.body w known
  readDepth c := by
    rw [readDepth_enterCall, readDepth_enterCall]
    exact same.readDepth c
  callDepth w := by
    rw [Eval.callDepth_enterCall, Eval.callDepth_enterCall]
    split
    · exact (same.callDepth u).succ
    · exact same.callDepth w

theorem leaveCall (before : Store.Simplifies how loan s s') {u : UserFunction}
    {arguments : List Value} (after : Store.Simplifies how (.ofCall s s' u arguments) t t') :
    Store.Simplifies how loan (Eval.leaveCall s u t) (Eval.leaveCall s' u t') where
  definition c free := by
    rw [definition_leaveCall, definition_leaveCall]
    split
    · exact before.definition c free
    · exact after.definition c free
  original c lent := by
    rw [definition_leaveCall]
    split
    · exact before.original c lent
    · rename_i other
      rw [after.original c lent]
      exact (definition_enterCall_of_not_borrows other).trans (before.original c lent)
  simplified c lent := by
    rw [definition_leaveCall]
    split
    · exact before.simplified c lent
    · rename_i other
      rw [after.simplified c lent]
      exact (definition_enterCall_of_not_borrows other).trans (before.simplified c lent)
  body w known := by
    rw [body_leaveCall, body_leaveCall]
    exact after.body w known
  readDepth c := by
    rw [readDepth_leaveCall, readDepth_leaveCall]
    exact after.readDepth c
  callDepth w := by
    rw [Eval.callDepth_leaveCall, Eval.callDepth_leaveCall]
    split
    · exact (after.callDepth u).pred
    · exact after.callDepth w

theorem fits_enterCall (s s' : Store) (u : UserFunction) {arguments : List Value}
    (count : arguments.length = u.parameters.length) :
    (Loan.ofCall s s' u arguments).Fits how (how.lending u) := by
  cases how with
  | unwrapping => exact True.intro
  | substituting callee =>
    by_cases own : u = callee
    · subst own
      rw [Simplification.lending, if_pos rfl]
      intro c lent
      obtain ⟨v, given⟩ := exists_given_arguments count lent
      have bound (s : Store) : (Eval.enterCall s u arguments).definition c = .literal v := by
        rw [definition_enterCall, given]
        rfl
      exact ⟨v, bound s, bound s'⟩
    · rw [Simplification.lending, if_neg own]
      exact True.intro

end Store.Simplifies

end Abacus
