import Abacus.Proofs.Eval.Budget

/-!
# Vocabularies

A vocabulary says which cells, user functions and modifiers expressions may use.
An evaluation composes expressions from what it has, so it never leaves a
vocabulary; nor does it leave a read or a call uncounted.
-/

namespace Abacus

open Eval

/-- The cells, user functions and modifiers that expressions may use. -/
structure Vocabulary where
  cell : Cell → Prop := fun _ => True
  function : UserFunction → Prop := fun _ => True
  modifier : Modifier → Prop := fun _ => True

namespace Expr

mutual

/-- Whether an expression keeps to a vocabulary. -/
def Uses (V : Vocabulary) : Expr → Prop
  | .literal _ => True
  | .cell c => V.cell c
  | .binary _ left right => left.Uses V ∧ right.Uses V
  | .unary m operand => V.modifier m ∧ operand.Uses V
  | .call f arguments => (∀ u, f = .user u → V.function u) ∧ AllUse V arguments
  | .parens inner => inner.Uses V
  | .branches whenTrue whenFalse => whenTrue.Uses V ∧ whenFalse.Uses V

def AllUse (V : Vocabulary) : List Expr → Prop
  | [] => True
  | e :: rest => e.Uses V ∧ AllUse V rest

end

theorem allUse_iff {V : Vocabulary} {es : List Expr} : AllUse V es ↔ ∀ e ∈ es, e.Uses V := by
  induction es with
  | nil => simp [AllUse]
  | cons e rest inductionHypothesis => simp [AllUse, inductionHypothesis]

end Expr

/-! ## Counts of reads and calls -/

namespace Store

/-- Whether the same reads and calls are under way in two stores. -/
def SameCounts (s t : Store) : Prop :=
  (∀ c, t.readDepth c = s.readDepth c) ∧ ∀ u, t.callDepth u = s.callDepth u

theorem SameCounts.refl (s : Store) : SameCounts s s := ⟨fun _ => rfl, fun _ => rfl⟩

theorem SameCounts.trans {s t u : Store} (first : SameCounts s t) (second : SameCounts t u) :
    SameCounts s u :=
  ⟨fun c => (second.1 c).trans (first.1 c), fun f => (second.2 f).trans (first.2 f)⟩

theorem readDepth_leaveRead_enterRead (s : Store) (c d : Cell) :
    ((s.enterRead c).leaveRead c).readDepth d = s.readDepth d := by
  rw [readDepth_leaveRead, readDepth_enterRead, readDepth_enterRead, if_pos rfl]
  by_cases number : c.id = d.id
  · rw [if_pos number, Nat.add_sub_cancel]
    unfold readDepth
    rw [number]
  · rw [if_neg number, if_neg number]

@[simp] theorem readDepth_defineAll (s : Store) (pairs : List (Cell × Expr)) (c : Cell) :
    (s.defineAll pairs).readDepth c = s.readDepth c := by
  unfold defineAll
  induction pairs generalizing s with
  | nil => rfl
  | cons pair rest inductionHypothesis =>
    rw [List.foldl_cons, inductionHypothesis]
    rfl

@[simp] theorem callDepth_defineAll (s : Store) (pairs : List (Cell × Expr)) (u : UserFunction) :
    (s.defineAll pairs).callDepth u = s.callDepth u := by
  unfold defineAll
  induction pairs generalizing s with
  | nil => rfl
  | cons pair rest inductionHypothesis =>
    rw [List.foldl_cons, inductionHypothesis]
    rfl

/-- Whether what cells and functions stand for keeps to a vocabulary. -/
def Uses (V : Vocabulary) (s : Store) : Prop :=
  (∀ c, (s.definition c).Uses V) ∧ ∀ u, (s.body u).Uses V

theorem Uses.all {V : Vocabulary} {s : Store} (uses : s.Uses V) : s.All (Expr.Uses V) := uses

theorem Uses.define {V : Vocabulary} {s : Store} (uses : s.Uses V) {c : Cell} {e : Expr}
    (added : e.Uses V) : (s.define c e).Uses V :=
  uses.all.define added

end Store

/-! ## The invariant -/

namespace Vocabulary

variable (V : Vocabulary)

/-- Expressions keep to a vocabulary, and reads and calls that start also end. -/
def invariant : Invariant where
  holds := Store.Uses V
  admits := Expr.Uses V
  relates := Store.SameCounts

theorem kept : V.invariant.Kept where
  refl := Store.SameCounts.refl
  trans := Store.SameCounts.trans
  literal _ := True.intro
  branches := Iff.rfl
  parens admitted := admitted
  binary admitted := admitted
  unary admitted := admitted.2
  arguments admitted := Expr.allUse_iff.1 admitted.2
  definition before _ := before.1 _
  define before _ _ admitted := ⟨before.define admitted, Store.SameCounts.refl _⟩
  reading {s c} before _ _ := by
    refine ⟨before, fun t after related => ⟨after, fun d => ?_, related.2⟩⟩
    have counted := related.1 d
    have counted' := related.1 c
    rw [Store.readDepth_enterRead] at counted counted'
    rw [Store.readDepth_leaveRead]
    by_cases same : c.id = d.id
    · have depth : s.readDepth c = s.readDepth d := by unfold Store.readDepth; rw [same]
      rw [if_pos same, counted', if_pos rfl]
      omega
    · rw [if_neg same, counted, if_neg same]
  calling {s u es} arguments before _ _ := by
    have entered := before.all.enterCall (fun _ => True.intro) u arguments
    refine ⟨entered, entered.2 u, fun t after related =>
      ⟨before.all.leaveCall after u, fun c => ?_, fun f => ?_⟩⟩
    · have counted := related.1 c
      simp only [enterCall, Store.readDepth_defineAll] at counted
      exact (Store.readDepth_defineAll t _ c).trans counted
    · have counted := related.2 f
      have counted' := related.2 u
      simp only [enterCall, Store.callDepth_defineAll, Store.callDepth_enterCall, if_true]
        at counted counted'
      simp only [leaveCall, Store.callDepth_leaveCall, Store.callDepth_defineAll]
      by_cases same : u.id = f.id
      · have depth : s.callDepth u = s.callDepth f := by unfold Store.callDepth; rw [same]
        rw [if_pos same, counted']
        omega
      · rw [if_neg same, counted, if_neg same]

end Vocabulary

/-! ## Vocabularies with finitely many numbers -/

namespace Vocabulary

/-- The cells and functions of a vocabulary numbered below `n`, and its modifiers. -/
def below (V : Vocabulary) (n : Nat) : Vocabulary where
  cell c := V.cell c ∧ c.id < n
  function u := V.function u ∧ u.id < n
  modifier := V.modifier

end Vocabulary

namespace Expr

mutual

theorem Uses.weaken {V W : Vocabulary} (cells : ∀ c, V.cell c → W.cell c)
    (functions : ∀ u, V.function u → W.function u) (modifiers : ∀ m, V.modifier m → W.modifier m) :
    ∀ {e : Expr}, e.Uses V → e.Uses W
  | .literal _, _ => True.intro
  | .cell c, uses => cells c uses
  | .binary _ _ _, uses | .branches _ _, uses =>
    ⟨Uses.weaken cells functions modifiers uses.1, Uses.weaken cells functions modifiers uses.2⟩
  | .unary m _, uses => ⟨modifiers m uses.1, Uses.weaken cells functions modifiers uses.2⟩
  | .call _ _, uses =>
    ⟨fun u same => functions u (uses.1 u same), AllUse.weaken cells functions modifiers uses.2⟩
  | .parens inner, uses => Uses.weaken cells functions modifiers (e := inner) uses

theorem AllUse.weaken {V W : Vocabulary} (cells : ∀ c, V.cell c → W.cell c)
    (functions : ∀ u, V.function u → W.function u) (modifiers : ∀ m, V.modifier m → W.modifier m) :
    ∀ {es : List Expr}, AllUse V es → AllUse W es
  | [], _ => True.intro
  | _ :: _, uses =>
    ⟨Uses.weaken cells functions modifiers uses.1, AllUse.weaken cells functions modifiers uses.2⟩

end

mutual

theorem uses_anything : ∀ e : Expr, e.Uses {}
  | .literal _ | .cell _ => True.intro
  | .binary _ left right | .branches left right => ⟨left.uses_anything, right.uses_anything⟩
  | .unary _ operand => ⟨True.intro, operand.uses_anything⟩
  | .call _ arguments => ⟨fun _ _ => True.intro, allUse_anything arguments⟩
  | .parens inner => inner.uses_anything

theorem allUse_anything : ∀ es : List Expr, AllUse {} es
  | [] => True.intro
  | e :: rest => ⟨e.uses_anything, allUse_anything rest⟩

end

theorem Uses.below_of_le {V : Vocabulary} {n m : Nat} (le : n ≤ m) {e : Expr}
    (uses : e.Uses (V.below n)) : e.Uses (V.below m) :=
  have cells (c : Cell) (bounded : V.cell c ∧ c.id < n) : V.cell c ∧ c.id < m :=
    bounded.imp_right fun less => Nat.lt_of_lt_of_le less le
  have functions (u : UserFunction) (bounded : V.function u ∧ u.id < n) :
      V.function u ∧ u.id < m :=
    bounded.imp_right fun less => Nat.lt_of_lt_of_le less le
  Uses.weaken (V := V.below n) (W := V.below m) cells functions (fun _ same => same) uses

theorem Uses.of_below {V : Vocabulary} {n : Nat} {e : Expr} (uses : e.Uses (V.below n)) :
    e.Uses V :=
  Uses.weaken (V := V.below n) (W := V) (fun _ => And.left) (fun _ => And.left)
    (fun _ same => same) uses

mutual

theorem Uses.exists_below {V : Vocabulary} : ∀ {e : Expr}, e.Uses V → ∃ n, e.Uses (V.below n)
  | .literal _, _ => ⟨0, True.intro⟩
  | .cell c, uses => ⟨c.id + 1, uses, Nat.lt_succ_self _⟩
  | .binary _ _ _, uses | .branches _ _, uses => by
    obtain ⟨n, left⟩ := Uses.exists_below uses.1
    obtain ⟨m, right⟩ := Uses.exists_below uses.2
    exact ⟨max n m, left.below_of_le (Nat.le_max_left n m),
      right.below_of_le (Nat.le_max_right n m)⟩
  | .unary _ _, uses => by
    obtain ⟨n, operand⟩ := Uses.exists_below uses.2
    exact ⟨n, uses.1, operand⟩
  | .call f _, uses => by
    obtain ⟨n, arguments⟩ := AllUse.exists_below uses.2
    cases f with
    | builtin b =>
      refine ⟨n, fun u same => ?_, arguments⟩
      cases same
    | user u =>
      refine ⟨max n (u.id + 1), fun v same => ?_, ?_⟩
      · cases same
        exact ⟨uses.1 u rfl, Nat.le_max_right n (u.id + 1)⟩
      · exact allUse_iff.2 fun e member =>
          (allUse_iff.1 arguments e member).below_of_le (Nat.le_max_left n _)
  | .parens inner, uses => Uses.exists_below (e := inner) uses

theorem AllUse.exists_below {V : Vocabulary} :
    ∀ {es : List Expr}, AllUse V es → ∃ n, AllUse (V.below n) es
  | [], _ => ⟨0, True.intro⟩
  | _ :: _, uses => by
    obtain ⟨n, first⟩ := Uses.exists_below uses.1
    obtain ⟨m, rest⟩ := AllUse.exists_below uses.2
    refine ⟨max n m, first.below_of_le (Nat.le_max_left n m), ?_⟩
    exact allUse_iff.2 fun e member =>
      (allUse_iff.1 rest e member).below_of_le (Nat.le_max_right n m)

end

end Expr

namespace Store

theorem exists_below_of_table {V : Vocabulary} {table : Table Nat Expr}
    (uses : ∀ k, ((table.get? k).getD .void).Uses V) :
    ∃ n, ∀ k, ((table.get? k).getD .void).Uses (V.below n) := by
  have some_bound (keys : List Nat) :
      ∃ n, ∀ k ∈ keys, ((table.get? k).getD .void).Uses (V.below n) := by
    induction keys with
    | nil => exact ⟨0, fun _ member => nomatch member⟩
    | cons key rest inductionHypothesis =>
      obtain ⟨n, first⟩ := (uses key).exists_below
      obtain ⟨m, others⟩ := inductionHypothesis
      refine ⟨max n m, List.forall_mem_cons.2 ⟨first.below_of_le (Nat.le_max_left n m), ?_⟩⟩
      exact fun k member => (others k member).below_of_le (Nat.le_max_right n m)
  obtain ⟨n, bounded⟩ := some_bound table.keys
  refine ⟨n, fun k => ?_⟩
  by_cases present : k ∈ table.keys
  · exact bounded k present
  · rw [Table.get?_eq_none present]
    exact True.intro

theorem Uses.exists_below {V : Vocabulary} {s : Store} (uses : s.Uses V) :
    ∃ n, s.Uses (V.below n) := by
  obtain ⟨n, definitions⟩ := exists_below_of_table fun k => uses.1 ⟨k, "", .variable⟩
  obtain ⟨m, bodies⟩ := exists_below_of_table fun k => uses.2 ⟨k, "", []⟩
  refine ⟨max n m, fun c => ?_, fun u => ?_⟩
  · exact (definitions c.id).below_of_le (Nat.le_max_left n m)
  · exact (bodies u.id).below_of_le (Nat.le_max_right n m)

end Store

end Abacus
