import Abacus.Proofs.Expr.Explicit
import Abacus.Proofs.Expr.Parts
import Abacus.Proofs.Parse.Chain

/-!
# Composed expressions

Expressions that are composed with the operators of any grammar, how they are printed, and
when their parentheses are those that the grammar needs.
-/

namespace Abacus.Expr

/-! ## Names -/

mutual

/-- An expression with the cells that its names lead to. -/
def relinked (cellOf : String → Cell) : Expr → Expr
  | .literal v => .literal v
  | .cell c => .cell (cellOf c.name)
  | .binary o l r => .binary o (l.relinked cellOf) (r.relinked cellOf)
  | .unary m e => .unary m (e.relinked cellOf)
  | .call f es => .call f (relinkedAll cellOf es)
  | .parens inner => .parens (inner.relinked cellOf)
  | .branches a b => .branches (a.relinked cellOf) (b.relinked cellOf)

def relinkedAll (cellOf : String → Cell) : List Expr → List Expr
  | [] => []
  | e :: rest => e.relinked cellOf :: relinkedAll cellOf rest

end

theorem relinkedAll_eq_map (cellOf : String → Cell) (es : List Expr) :
    relinkedAll cellOf es = es.map (relinked cellOf) := by
  induction es with
  | nil => rfl
  | cons e rest inductionHypothesis => rw [relinkedAll, inductionHypothesis, List.map_cons]

mutual

theorem withoutParens_relinked (cellOf : String → Cell) : ∀ e : Expr,
    (e.relinked cellOf).withoutParens = e.withoutParens.relinked cellOf
  | .literal _ | .cell _ => rfl
  | .binary _ l r => by
    simp only [relinked, withoutParens, withoutParens_relinked cellOf l,
      withoutParens_relinked cellOf r]
  | .unary _ e => by simp only [relinked, withoutParens, withoutParens_relinked cellOf e]
  | .call _ es => by simp only [relinked, withoutParens, withoutParensAll_relinkedAll cellOf es]
  | .parens e => by simp only [relinked, withoutParens, withoutParens_relinked cellOf e]
  | .branches a b => by
    simp only [relinked, withoutParens, withoutParens_relinked cellOf a,
      withoutParens_relinked cellOf b]

theorem withoutParensAll_relinkedAll (cellOf : String → Cell) : ∀ es : List Expr,
    withoutParensAll (relinkedAll cellOf es) = relinkedAll cellOf (withoutParensAll es)
  | [] => rfl
  | e :: rest => by
    simp only [relinkedAll, withoutParensAll, withoutParens_relinked cellOf e,
      withoutParensAll_relinkedAll cellOf rest]

end

mutual

theorem relinked_relinked (cellOf : String → Cell) (c : Cell) : ∀ e : Expr,
    (e.relinked cellOf).relinked (fun _ => c) = e.relinked fun _ => c
  | .literal _ | .cell _ => rfl
  | .binary _ l r => by
    simp only [relinked, relinked_relinked cellOf c l, relinked_relinked cellOf c r]
  | .unary _ e => by simp only [relinked, relinked_relinked cellOf c e]
  | .call _ es => by simp only [relinked, relinkedAll_relinkedAll cellOf c es]
  | .parens e => by simp only [relinked, relinked_relinked cellOf c e]
  | .branches a b => by
    simp only [relinked, relinked_relinked cellOf c a, relinked_relinked cellOf c b]

theorem relinkedAll_relinkedAll (cellOf : String → Cell) (c : Cell) : ∀ es : List Expr,
    relinkedAll (fun _ => c) (relinkedAll cellOf es) = relinkedAll (fun _ => c) es
  | [] => rfl
  | e :: rest => by
    simp only [relinkedAll, relinked_relinked cellOf c e, relinkedAll_relinkedAll cellOf c rest]

end

/-- What is left of an expression without parentheses and names. -/
def outline (e : Expr) : Expr := e.withoutParens.relinked fun _ => ⟨0, "", .variable⟩

theorem outline_call (f : Function) (es : List Expr) :
    (Expr.call f es).outline = .call f (es.map outline) := by
  rw [outline, withoutParens, relinked, withoutParensAll_eq_map, relinkedAll_eq_map, List.map_map]
  rfl

theorem outline_eq_of_withoutParens {e t : Expr} {cellOf : String → Cell}
    (same : e.withoutParens = t.withoutParens.relinked cellOf) : e.outline = t.outline := by
  rw [outline, outline, same, relinked_relinked]

/-! ## The texts with a pair of parentheses less -/

mutual

/-- The texts of an expression in a place that lack one of the pairs of parentheses that are added
    around operands. -/
def lessParensAt (g : Grammar) (place : Place) : Expr → List String
  | .literal v => if literalNeedsParens v place then [v.text] else []
  | .cell _ => []
  | .binary operator left right =>
    let tier := g.operatorRow? operator.symbol
    let associativity := g.associativity? operator.symbol
    let needed := operationNeedsParens tier place
    let text (l r : String) : String := l ++ " " ++ operator.symbol ++ " " ++ r
    let l := renderAt g (.leftOf tier associativity) left
    let r := renderAt g (.rightOf tier associativity) right
    (if needed then [text l r] else []) ++
      ((lessParensAt g (.leftOf tier associativity) left).map fun l' =>
        parenthesised needed (text l' r)) ++
      (lessParensAt g (.rightOf tier associativity) right).map fun r' =>
        parenthesised needed (text l r')
  | .unary modifier operand =>
    let side := modifier.side
    let tier := g.modifierRow? modifier.symbol side
    let needed := modificationNeedsParens tier side place
    let gap := modifierGap side operand
    let text (inner : String) : String :=
      match side with
      | .before => modifier.symbol ++ gap ++ inner
      | .after => inner ++ gap ++ modifier.symbol
    (if needed then [text (renderAt g (.operandOf tier side) operand)] else []) ++
      (lessParensAt g (.operandOf tier side) operand).map fun inner =>
        parenthesised needed (text inner)
  | .call function arguments =>
    (lessParensAll g arguments).map fun texts =>
      function.name ++ "(" ++ ", ".intercalate texts ++ ")"
  | .parens inner => (lessParensAt g .alone inner).map fun text => "(" ++ text ++ ")"
  | .branches whenTrue whenFalse =>
    let text (a b : String) : String := "(" ++ a ++ " : " ++ b ++ ")"
    ((lessParensAt g .alone whenTrue).map fun a => text a (renderAt g .alone whenFalse)) ++
      (lessParensAt g .alone whenFalse).map fun b => text (renderAt g .alone whenTrue) b

def lessParensAll (g : Grammar) : List Expr → List (List String)
  | [] => []
  | e :: rest =>
    ((lessParensAt g .alone e).map fun text => text :: renderAll g rest) ++
      (lessParensAll g rest).map fun texts => renderAt g .alone e :: texts

end

/-- The rendered text of an expression with one of the added pairs of parentheses left out, for each
    of them. -/
def lessParens (g : Grammar) (e : Expr) : List String := e.lessParensAt g .alone

/-! ## Composition -/

/-- Expressions made with registered operators of leaves and calls that meet a condition. -/
inductive Composed (g : Grammar) (leaf : Expr → Prop) (callable : Function → Nat → Prop) :
    Expr → Prop where
  | literal {v : Value} : leaf (.literal v) → Composed g leaf callable (.literal v)
  | cell {c : Cell} : leaf (.cell c) → Composed g leaf callable (.cell c)
  | binary {row : Nat} {o : Operator} {l r : Expr} : g.Operates row o →
      Composed g leaf callable l → Composed g leaf callable r →
      Composed g leaf callable (.binary o l r)
  | call {f : Function} {es : List Expr} : callable f es.length →
      (∀ e ∈ es, Composed g leaf callable e) → Composed g leaf callable (.call f es)
  | parens {e : Expr} : Composed g leaf callable e → Composed g leaf callable (.parens e)

/-- Expressions the parentheses of which keep every operator in its place, with no operator outside
    of them that is looser than row `floor`. -/
inductive Fits (g : Grammar) : (floor : Nat) → Expr → Prop where
  | literal {floor : Nat} {v : Value} : Fits g floor (.literal v)
  | cell {floor : Nat} {c : Cell} : Fits g floor (.cell c)
  | binary {floor row : Nat} {o : Operator} {l r : Expr} : g.Operates row o → floor ≤ row →
      Fits g (g.leftFloor o) l → Fits g (g.rightFloor o) r → Fits g floor (.binary o l r)
  | call {floor : Nat} {f : Function} {es : List Expr} : (∀ e ∈ es, Fits g 0 e) →
      Fits g floor (.call f es)
  | parens {floor : Nat} {e : Expr} : Fits g 0 e → Fits g floor (.parens e)

section

variable {g : Grammar} {leaf : Expr → Prop} {callable : Function → Nat → Prop} {floor : Nat} {e : Expr}

theorem Fits.joined (fits : Fits g floor e) : Joined g floor e := by
  induction fits with
  | literal | cell | call _ _ | parens _ _ => exact .operand rfl
  | binary operates within _ _ leftHypothesis rightHypothesis =>
    exact .binary operates within leftHypothesis rightHypothesis

theorem Joined.fits (joined : Joined g floor e)
    (operands : ∀ x, .operand x ∈ e.items g → Fits g 0 x) : Fits g floor e := by
  induction joined with
  | operand operand =>
    rw [items_operand g operand] at operands
    cases operands _ List.mem_cons_self with
    | literal => exact .literal
    | cell => exact .cell
    | call each => exact .call each
    | parens inner => exact .parens inner
    | binary _ _ _ _ => cases operand
  | binary operates within _ _ leftHypothesis rightHypothesis =>
    rw [items_binary operates] at operands
    exact .binary operates within
      (leftHypothesis fun x member => operands x (List.mem_append_left _ member))
      (rightHypothesis fun x member =>
        operands x (List.mem_append_right _ (List.mem_cons_of_mem _ member)))

theorem Composed.chain_items (composed : Composed g leaf callable e) : Parse.Chain g (e.items g) := by
  induction composed with
  | literal _ | cell _ | call _ _ _ | parens _ _ => exact .operand rfl
  | binary operates _ _ leftHypothesis rightHypothesis =>
    rw [items_binary operates]
    exact leftHypothesis.append operates rightHypothesis

theorem Composed.relinked (composed : Composed g leaf callable e) (cellOf : String → Cell) :
    Composed g (fun _ => True) (fun _ _ => True) (e.relinked cellOf) := by
  induction composed with
  | literal _ => exact .literal True.intro
  | cell _ => exact .cell True.intro
  | binary operates _ _ leftHypothesis rightHypothesis =>
    exact .binary operates leftHypothesis rightHypothesis
  | call _ _ inductionHypothesis =>
    refine .call True.intro ?_
    rw [relinkedAll_eq_map]
    exact List.forall_mem_map.2 inductionHypothesis
  | parens _ inductionHypothesis => exact .parens inductionHypothesis

theorem Composed.fits_relinked (composed : Composed g leaf callable e) (cellOf : String → Cell) :
    Fits g floor (e.relinked cellOf) ↔ Fits g floor e := by
  induction composed generalizing floor with
  | literal _ => exact iff_of_true .literal .literal
  | cell _ => exact iff_of_true .cell .cell
  | binary operates _ _ leftHypothesis rightHypothesis =>
    constructor
    · rintro (_ | _ | ⟨operates, within, left, right⟩)
      exact .binary operates within (leftHypothesis.1 left) (rightHypothesis.1 right)
    · rintro (_ | _ | ⟨operates, within, left, right⟩)
      exact .binary operates within (leftHypothesis.2 left) (rightHypothesis.2 right)
  | @call f es _ _ inductionHypothesis =>
    rw [Expr.relinked, relinkedAll_eq_map]
    constructor
    · rintro (_ | _ | _ | each)
      exact .call fun e member => (inductionHypothesis e member).1
        (each _ (List.mem_map_of_mem member))
    · rintro (_ | _ | _ | each)
      exact .call (List.forall_mem_map.2 fun e member => (inductionHypothesis e member).2 (each e member))
  | parens _ inductionHypothesis =>
    constructor
    · rintro (_ | _ | _ | _ | inner)
      exact .parens (inductionHypothesis.1 inner)
    · rintro (_ | _ | _ | _ | inner)
      exact .parens (inductionHypothesis.2 inner)

end

/-! ## Places -/

/-- The loosest row that needs no parentheses in a place. -/
inductive Place.Floor : Place → Nat → Prop where
  | alone : Place.Floor .alone 0
  | leftOf (row : Nat) (a : Associativity) :
      Place.Floor (.leftOf (some row) (some a)) (row + if some a = some .left then 0 else 1)
  | rightOf (row : Nat) (a : Associativity) :
      Place.Floor (.rightOf (some row) (some a)) (row + if some a = some .right then 0 else 1)

theorem Place.Floor.needs {place : Place} {floor : Nat} (stands : place.Floor floor) (own : Nat) :
    operationNeedsParens (some own) place = decide (own < floor) := by
  cases stands with
  | alone => simp [operationNeedsParens]
  | leftOf row a | rightOf row a =>
    rw [Bool.eq_iff_iff]
    cases a <;> (simp [operationNeedsParens]; try omega)

section

variable {p : Grammar.Plan} {g : Grammar} (accepted : p.toGrammar = .ok g)
include accepted

theorem floors_of_operates {row : Nat} {o : Operator} (operates : g.Operates row o) :
    Place.Floor (.leftOf (g.operatorRow? o.symbol) (g.associativity? o.symbol)) (g.leftFloor o) ∧
    Place.Floor (.rightOf (g.operatorRow? o.symbol) (g.associativity? o.symbol)) (g.rightFloor o) := by
  obtain ⟨a, members, tier⟩ := operates.tier accepted
  rw [Grammar.leftFloor, Grammar.rightFloor, operates.row?, operates.associativity? tier]
  exact ⟨.leftOf row a, .rightOf row a⟩

end

/-! ## Rendered texts -/

/-- Whether a text is that of an expression, composed like another one, which differs from it at
    most in its parentheses. -/
structure Writes (g : Grammar) (leaf : Expr → Prop) (callable : Function → Nat → Prop) (e : Expr)
    (text : String) (y : Expr) : Prop where
  text : text.toList = y.plain
  composed : Composed g leaf callable y
  same : y.withoutParens = e.withoutParens

namespace Writes

variable {g : Grammar} {leaf : Expr → Prop} {callable : Function → Nat → Prop}

theorem parens {e y : Expr} {text : String} (writes : Writes g leaf callable e text y) :
    Writes g leaf callable (.parens e) ("(" ++ text ++ ")") (.parens y) where
  text := by simp [plain, writes.text]
  composed := .parens writes.composed
  same := writes.same

theorem parenthesised {e y : Expr} {text : String} (writes : Writes g leaf callable e text y)
    (needed : Bool) : Writes g leaf callable e (parenthesised needed text) (enclosed needed y) := by
  cases needed
  · exact writes
  · exact ⟨writes.parens.text, writes.parens.composed, writes.same⟩

theorem binary {row : Nat} {o : Operator} (operates : g.Operates row o) {l r left right : Expr}
    {first second : String} (writesLeft : Writes g leaf callable l first left)
    (writesRight : Writes g leaf callable r second right) :
    Writes g leaf callable (.binary o l r) (first ++ " " ++ o.symbol ++ " " ++ second)
      (.binary o left right) where
  text := by simp [plain, writesLeft.text, writesRight.text]
  composed := .binary operates writesLeft.composed writesRight.composed
  same := by rw [withoutParens, withoutParens, writesLeft.same, writesRight.same]

end Writes

inductive WritesAll (g : Grammar) (leaf : Expr → Prop) (callable : Function → Nat → Prop) :
    List Expr → List String → List Expr → Prop where
  | nil : WritesAll g leaf callable [] [] []
  | cons {e y : Expr} {text : String} {es ys : List Expr} {texts : List String} :
      Writes g leaf callable e text y → WritesAll g leaf callable es texts ys →
      WritesAll g leaf callable (e :: es) (text :: texts) (y :: ys)

section

variable {g : Grammar} {leaf : Expr → Prop} {callable : Function → Nat → Prop}

theorem Writes.call {f : Function} {es ys : List Expr} {texts : List String}
    (calls : callable f es.length) (writes : WritesAll g leaf callable es texts ys) :
    Writes g leaf callable (.call f es) (f.name ++ "(" ++ ", ".intercalate texts ++ ")")
      (.call f ys) := by
  obtain ⟨length, text, composed, same⟩ : ys.length = es.length ∧
      texts.map String.toList = ys.map plain ∧ (∀ y ∈ ys, Composed g leaf callable y) ∧
      ys.map withoutParens = es.map withoutParens := by
    clear calls
    induction writes with
    | nil => simp
    | cons writes _ inductionHypothesis =>
      simp [inductionHypothesis, writes.text, writes.composed, writes.same]
      exact inductionHypothesis.2.2.1
  refine ⟨?_, .call (length ▸ calls) composed, ?_⟩
  · simp [plain, plainAll_eq_map, String.toList_intercalate, text]
  · rw [withoutParens, withoutParens, withoutParensAll_eq_map, withoutParensAll_eq_map, same]

theorem exists_of_renderAll {es : List Expr}
    (each : ∀ e ∈ es, ∃ y, Writes g leaf callable e (renderAt g .alone e) y ∧ Fits g 0 y) :
    ∃ ys, WritesAll g leaf callable es (renderAll g es) ys ∧ ∀ y ∈ ys, Fits g 0 y := by
  induction es with
  | nil => exact ⟨[], .nil, fun _ impossible => by cases impossible⟩
  | cons e es inductionHypothesis =>
    rw [List.forall_mem_cons] at each
    obtain ⟨⟨y, writes, fits⟩, each⟩ := each
    obtain ⟨ys, writesRest, fitsRest⟩ := inductionHypothesis each
    exact ⟨y :: ys, .cons writes writesRest, List.forall_mem_cons.2 ⟨fits, fitsRest⟩⟩

theorem exists_of_lessParensAll {es : List Expr}
    (each : ∀ e ∈ es, ∃ y, Writes g leaf callable e (renderAt g .alone e) y ∧ Fits g 0 y)
    (less : ∀ e ∈ es, ∀ text ∈ e.lessParensAt g .alone,
      ∃ y, Writes g leaf callable e text y ∧ ¬ Fits g 0 y) :
    ∀ texts ∈ lessParensAll g es, ∃ ys, WritesAll g leaf callable es texts ys ∧
      ∃ y ∈ ys, ¬ Fits g 0 y := by
  induction es with
  | nil => exact fun _ impossible => by cases impossible
  | cons e es inductionHypothesis =>
    intro texts member
    rw [List.forall_mem_cons] at less
    rw [lessParensAll, List.mem_append, List.mem_map, List.mem_map] at member
    rcases member with ⟨text, among, rfl⟩ | ⟨rest, among, rfl⟩
    · obtain ⟨y, writes, misfit⟩ := less.1 text among
      obtain ⟨ys, writesRest, _⟩ := exists_of_renderAll (List.forall_mem_cons.1 each).2
      exact ⟨y :: ys, .cons writes writesRest, y, List.mem_cons_self, misfit⟩
    · obtain ⟨y, writes, _⟩ := each e List.mem_cons_self
      obtain ⟨ys, writesRest, z, member, misfit⟩ :=
        inductionHypothesis (List.forall_mem_cons.1 each).2 less.2 rest among
      exact ⟨y :: ys, .cons writes writesRest, z, List.mem_cons_of_mem _ member, misfit⟩

theorem Fits.sides {floor : Nat} {o : Operator} {l r : Expr} (fits : Fits g floor (.binary o l r)) :
    Fits g (g.leftFloor o) l ∧ Fits g (g.rightFloor o) r := by
  cases fits with
  | binary _ _ left right => exact ⟨left, right⟩

theorem Fits.sides_of_enclosed {floor : Nat} {needed : Bool} {o : Operator} {l r : Expr}
    (fits : Fits g floor (enclosed needed (.binary o l r))) :
    Fits g (g.leftFloor o) l ∧ Fits g (g.rightFloor o) r := by
  cases needed
  · exact fits.sides
  · rcases fits with _ | _ | _ | _ | inner
    exact inner.sides

end

section

variable {p : Grammar.Plan} {g : Grammar} {leaf : Expr → Prop} {callable : Function → Nat → Prop}
  (accepted : p.toGrammar = .ok g)
  (atomic : ∀ v place, leaf (.literal v) → literalNeedsParens v place = false)

include accepted atomic

/-- What is rendered has all the parentheses that are needed. -/
theorem Composed.exists_fits {e : Expr} (composed : Composed g leaf callable e) {place : Place}
    {floor : Nat} (stands : place.Floor floor) :
    ∃ y, Writes g leaf callable e (renderAt g place e) y ∧ Fits g floor y := by
  induction composed generalizing place floor with
  | @literal v good =>
    rw [renderAt, atomic v place good]
    exact ⟨.literal v, ⟨rfl, .literal good, rfl⟩, .literal⟩
  | @cell c good => exact ⟨.cell c, ⟨rfl, .cell good, rfl⟩, .cell⟩
  | @binary row o l r operates _ _ leftHypothesis rightHypothesis =>
    obtain ⟨leftFloor, rightFloor⟩ := floors_of_operates accepted operates
    obtain ⟨left, writesLeft, fitsLeft⟩ := leftHypothesis leftFloor
    obtain ⟨right, writesRight, fitsRight⟩ := rightHypothesis rightFloor
    refine ⟨_, (writesLeft.binary operates writesRight).parenthesised _, ?_⟩
    -- Parentheses are added exactly where the operator is looser than the floor of the place.
    rw [operates.row?, stands.needs]
    by_cases looser : row < floor
    · rw [decide_eq_true looser]
      exact .parens (.binary operates (Nat.zero_le _) fitsLeft fitsRight)
    · rw [decide_eq_false looser]
      exact .binary operates (Nat.le_of_not_lt looser) fitsLeft fitsRight
  | @call f es calls _ inductionHypothesis =>
    obtain ⟨ys, writes, fits⟩ := exists_of_renderAll fun e member => inductionHypothesis e member .alone
    exact ⟨.call f ys, .call calls writes, .call fits⟩
  | parens _ inductionHypothesis =>
    obtain ⟨y, writes, fits⟩ := inductionHypothesis .alone
    exact ⟨.parens y, writes.parens, .parens fits⟩

/-- A text that lacks a pair of parentheses lacks one that is needed. -/
theorem Composed.exists_not_fits {e : Expr} (composed : Composed g leaf callable e) {place : Place}
    {floor : Nat} (stands : place.Floor floor) : ∀ text ∈ e.lessParensAt g place,
      ∃ y, Writes g leaf callable e text y ∧ ¬ Fits g floor y := by
  induction composed generalizing place floor with
  | @literal v good =>
    rw [lessParensAt, atomic v place good]
    exact fun _ impossible => by cases impossible
  | cell _ => exact fun _ impossible => by cases impossible
  | @binary row o l r operates composedLeft composedRight leftHypothesis rightHypothesis =>
    obtain ⟨leftFloor, rightFloor⟩ := floors_of_operates accepted operates
    obtain ⟨left, writesLeft, _⟩ := composedLeft.exists_fits accepted atomic leftFloor
    obtain ⟨right, writesRight, _⟩ := composedRight.exists_fits accepted atomic rightFloor
    have needs : operationNeedsParens (g.operatorRow? o.symbol) place = decide (row < floor) := by
      rw [operates.row?, stands.needs]
    intro text member
    simp only [lessParensAt, needs, List.mem_append, List.mem_map] at member
    rcases member with (added | ⟨l', among, rfl⟩) | ⟨r', among, rfl⟩
    · split at added
      · -- The operator stands in the open, below the floor.
        rename_i looser
        cases List.mem_singleton.1 added
        refine ⟨_, writesLeft.binary operates writesRight, fun fits => ?_⟩
        cases fits with
        | binary operates' within _ _ =>
          cases operates.row?.symm.trans operates'.row?
          exact absurd (of_decide_eq_true looser) (Nat.not_lt.2 within)
      · cases added
    · obtain ⟨y, writes, misfit⟩ := leftHypothesis leftFloor l' among
      exact ⟨_, (writes.binary operates writesRight).parenthesised _,
        fun fits => misfit fits.sides_of_enclosed.1⟩
    · obtain ⟨y, writes, misfit⟩ := rightHypothesis rightFloor r' among
      exact ⟨_, (writesLeft.binary operates writes).parenthesised _,
        fun fits => misfit fits.sides_of_enclosed.2⟩
  | @call f es calls composed inductionHypothesis =>
    intro text member
    rw [lessParensAt, List.mem_map] at member
    obtain ⟨texts, among, rfl⟩ := member
    obtain ⟨ys, writes, y, misfits, misfit⟩ := exists_of_lessParensAll
      (fun e member => (composed e member).exists_fits accepted atomic .alone)
      (fun e member => inductionHypothesis e member .alone) texts among
    refine ⟨.call f ys, .call calls writes, ?_⟩
    rintro (_ | _ | _ | each)
    exact misfit (each y misfits)
  | parens _ inductionHypothesis =>
    intro text member
    obtain ⟨inner, among, rfl⟩ := List.mem_map.1 member
    obtain ⟨y, writes, misfit⟩ := inductionHypothesis .alone inner among
    refine ⟨.parens y, writes.parens, ?_⟩
    rintro (_ | _ | _ | _ | fits)
    exact misfit fits

end

end Abacus.Expr
