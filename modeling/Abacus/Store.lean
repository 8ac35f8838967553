import Abacus.Expr.Basic
import Abacus.Table

/-!
# Stores

A store says what every cell stands for and what every user function does.  It
also counts the reads and the calls under way, by which endless recursion is
recognised.
-/

namespace Abacus

/-- The changing part of cells and functions, by their numbers. -/
structure Store where
  /-- What cells stand for; void unless said otherwise. -/
  definitions : Table Nat Expr := ∅
  /-- What user functions do; void unless said otherwise. -/
  bodies : Table Nat Expr := ∅
  /-- How many reads of a cell are under way. -/
  reads : Table Nat Nat := ∅
  /-- How many calls of a function are under way. -/
  calls : Table Nat Nat := ∅

instance : Inhabited Store := ⟨{}⟩

namespace Store

/-- What a cell stands for. -/
def definition (s : Store) (c : Cell) : Expr := (s.definitions.get? c.id).getD .void

/-- Makes a cell stand for an expression. -/
def define (s : Store) (c : Cell) (e : Expr) : Store :=
  { s with definitions := s.definitions.insert c.id e }

/-- What a function does. -/
def body (s : Store) (u : UserFunction) : Expr := (s.bodies.get? u.id).getD .void

/-- Changes what a function does. -/
def withBody (s : Store) (u : UserFunction) (e : Expr) : Store :=
  { s with bodies := s.bodies.insert u.id e }

/-- How many reads of a cell are under way. -/
def readDepth (s : Store) (c : Cell) : Nat := (s.reads.get? c.id).getD 0

/-- Counts a read that starts. -/
def enterRead (s : Store) (c : Cell) : Store :=
  { s with reads := s.reads.insert c.id (s.readDepth c + 1) }

/-- Counts a read that ends. -/
def leaveRead (s : Store) (c : Cell) : Store :=
  { s with reads := s.reads.insert c.id (s.readDepth c - 1) }

/-- How many calls of a function are under way. -/
def callDepth (s : Store) (u : UserFunction) : Nat := (s.calls.get? u.id).getD 0

/-- Counts a call that starts. -/
def enterCall (s : Store) (u : UserFunction) : Store :=
  { s with calls := s.calls.insert u.id (s.callDepth u + 1) }

/-- Counts a call that ends. -/
def leaveCall (s : Store) (u : UserFunction) : Store :=
  { s with calls := s.calls.insert u.id (s.callDepth u - 1) }

/-- What an expression stands for: the definition of a cell, seen through
    parentheses, and itself for every other expression. -/
def meaning (s : Store) : Expr → Expr
  | .cell c => s.definition c
  | .parens inner => s.meaning inner
  | e => e

/-- Makes cells stand for expressions, in order. -/
def defineAll (s : Store) (pairs : List (Cell × Expr)) : Store :=
  pairs.foldl (fun s (c, e) => s.define c e) s

/-! ## What is read afterwards -/

theorem definition_define (s : Store) (c d : Cell) (e : Expr) :
    (s.define c e).definition d = if c.id = d.id then e else s.definition d := by
  unfold definition define
  rw [Table.get?_insert]
  split <;> rfl

theorem body_withBody (s : Store) (u v : UserFunction) (e : Expr) :
    (s.withBody u e).body v = if u.id = v.id then e else s.body v := by
  unfold body withBody
  rw [Table.get?_insert]
  split <;> rfl

theorem readDepth_enterRead (s : Store) (c d : Cell) :
    (s.enterRead c).readDepth d = if c.id = d.id then s.readDepth c + 1 else s.readDepth d := by
  rw [enterRead, readDepth, Table.get?_insert]
  split <;> rfl

theorem readDepth_leaveRead (s : Store) (c d : Cell) :
    (s.leaveRead c).readDepth d = if c.id = d.id then s.readDepth c - 1 else s.readDepth d := by
  rw [leaveRead, readDepth, Table.get?_insert]
  split <;> rfl

theorem callDepth_enterCall (s : Store) (u v : UserFunction) :
    (s.enterCall u).callDepth v = if u.id = v.id then s.callDepth u + 1 else s.callDepth v := by
  rw [enterCall, callDepth, Table.get?_insert]
  split <;> rfl

theorem callDepth_leaveCall (s : Store) (u v : UserFunction) :
    (s.leaveCall u).callDepth v = if u.id = v.id then s.callDepth u - 1 else s.callDepth v := by
  rw [leaveCall, callDepth, Table.get?_insert]
  split <;> rfl

end Store

end Abacus
