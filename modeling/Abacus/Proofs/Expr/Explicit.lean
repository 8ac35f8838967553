import Abacus.Expr.Rendering
import Abacus.Proofs.Parse.Shape

/-!
# Explicit expressions

The rendered text of an expression is the plain text of an explicit one, in which
every parenthesis that is printed is written and every operand is what its text
reads as.  An explicit expression keeps the shape of the one it is made from.
-/

namespace Abacus

/-- Whether a number is the infinite one, the text of which is a name. -/
def Number.isInfinite : Number → Bool
  | .float x => Binary64.shape x = .infinite false
  | _ => false

theorem Number.text_of_isInfinite {a : Number} (infinite : a.isInfinite) :
    a.text = "inf" := by
  cases a with
  | integer _ | fraction _ _ => cases infinite
  | float x =>
    have shape : Binary64.shape x = .infinite false := of_decide_eq_true infinite
    rw [Number.text, Binary64.text, shape]
    rfl

namespace Expr

open Grammar (standard)

mutual

/-- The text of an expression with no other parentheses than its own. -/
def plain : Expr → List Char
  | .literal v => v.text.toList
  | .cell c => c.name.toList
  | .binary o l r => l.plain ++ ' ' :: (o.symbol.toList ++ ' ' :: r.plain)
  | .unary m e =>
    match m.side with
    | .before => m.symbol.toList ++ ((modifierGap m.side e).toList ++ e.plain)
    | .after => e.plain ++ ((modifierGap m.side e).toList ++ m.symbol.toList)
  | .call f arguments =>
    f.name.toList ++ '(' :: ([',', ' '].intercalate (plainAll arguments) ++ [')'])
  | .parens inner => '(' :: (inner.plain ++ [')'])
  | .branches a b => '(' :: (a.plain ++ ' ' :: ':' :: ' ' :: (b.plain ++ [')']))

def plainAll : List Expr → List (List Char)
  | [] => []
  | e :: rest => e.plain :: plainAll rest

end

theorem plainAll_eq_map (es : List Expr) : plainAll es = es.map plain := by
  induction es with
  | nil => rfl
  | cons e rest inductionHypothesis => rw [plainAll, inductionHypothesis, List.map_cons]

/-- Puts an expression in parentheses if they are needed. -/
def enclosed (needed : Bool) (e : Expr) : Expr := if needed then .parens e else e

/-- What the text of a literal reads as. -/
def settled (names : String → Cell) : Value → Expr
  | none => .cell (names "void")
  | some a => if a.isInfinite then .cell (names "inf") else .literal (some a)

mutual

/-- The expression with the parentheses and the operands of its rendered text. -/
def explicit (names : String → Cell) (place : Place) : Expr → Expr
  | .literal v => enclosed (literalNeedsParens v place) (settled names v)
  | .cell c => .cell c
  | .binary o l r =>
    let tier := standard.operatorRow? o.symbol
    let associativity := standard.associativity? o.symbol
    enclosed (operationNeedsParens tier place)
      (.binary o (l.explicit names (.leftOf tier associativity))
        (r.explicit names (.rightOf tier associativity)))
  | .unary m e =>
    let tier := standard.modifierRow? m.symbol m.side
    enclosed (modificationNeedsParens tier m.side place)
      (.unary m (e.explicit names (.operandOf tier m.side)))
  | .call f arguments => .call f (explicitAll names arguments)
  | .parens inner => .parens (inner.explicit names .alone)
  | .branches a b => .branches (a.explicit names .alone) (b.explicit names .alone)

def explicitAll (names : String → Cell) : List Expr → List Expr
  | [] => []
  | e :: rest => e.explicit names .alone :: explicitAll names rest

end

theorem explicitAll_eq_map (names : String → Cell) (es : List Expr) :
    explicitAll names es = es.map (explicit names .alone) := by
  induction es with
  | nil => rfl
  | cons e rest inductionHypothesis => rw [explicitAll, inductionHypothesis, List.map_cons]

theorem enclosed_cases {P : Expr → Prop} {needed : Bool} {e : Expr} (bare : P e)
    (inParens : P (.parens e)) : P (enclosed needed e) := by
  cases needed
  · exact bare
  · exact inParens

theorem settled_cases {P : Expr → Prop} (names : String → Cell) (v : Value)
    (literal : P (.literal v)) (cell : ∀ c, P (.cell c)) : P (settled names v) := by
  cases v with
  | none => exact cell _
  | some a =>
    rw [settled]
    split
    · exact cell _
    · exact literal

/-! ## Shapes -/

section

variable {names : String → Cell} {e : Expr}

theorem isOperand_explicit (operand : e.isOperand) (place : Place) :
    (e.explicit names place).isOperand := by
  cases e with
  | literal v =>
    have settles : (settled names v).isOperand := settled_cases (P := fun x => x.isOperand) names v
      rfl fun _ => rfl
    exact enclosed_cases (P := fun x => x.isOperand) settles rfl
  | cell _ | call _ _ | parens _ => rfl
  | binary _ _ _ | unary _ _ | branches _ _ => cases operand

theorem isBinary_explicit (alone : e.isBinary = false) (place : Place) :
    (e.explicit names place).isBinary = false := by
  cases e with
  | literal v => exact isBinary_of_isOperand (isOperand_explicit rfl place)
  | cell _ | call _ _ | parens _ | branches _ _ => rfl
  | unary m e => exact enclosed_cases (P := fun x => x.isBinary = false) rfl rfl
  | binary _ _ _ => cases alone

theorem Postfixed.explicit (postfixed : Postfixed e) (place : Place) :
    Postfixed (e.explicit names place) := by
  induction postfixed generalizing place with
  | operand operand => exact .operand (isOperand_explicit operand place)
  | after side modifies _ inductionHypothesis =>
    exact enclosed_cases (.after side modifies (inductionHypothesis _)) (.operand rfl)

theorem Stepped.explicit (stepped : Stepped e) (place : Place) :
    Stepped (e.explicit names place) := by
  induction stepped generalizing place with
  | postfixed postfixed => exact .postfixed (postfixed.explicit place)
  | step modifies _ inductionHypothesis =>
    exact enclosed_cases (.step modifies (inductionHypothesis _)) (.postfixed (.operand rfl))

theorem Signed.explicit (signed : Signed e) (place : Place) :
    Signed (e.explicit names place) := by
  induction signed generalizing place with
  | postfixed postfixed => exact .postfixed (postfixed.explicit place)
  | sign modifies _ inductionHypothesis =>
    exact enclosed_cases (.sign modifies (inductionHypothesis _)) (.postfixed (.operand rfl))
  | step modifies _ alone inductionHypothesis =>
    exact enclosed_cases (.step modifies (inductionHypothesis _) (isBinary_explicit alone _))
      (.postfixed (.operand rfl))
  | power operates stepped _ inductionHypothesis =>
    exact enclosed_cases (.power operates (stepped.explicit _) (inductionHypothesis _))
      (.postfixed (.operand rfl))

theorem Chained.explicit {row : Nat} (chained : Chained row e) (place : Place) :
    Chained row (e.explicit names place) := by
  have inParens {row : Nat} (loose : row < 8) (x : Expr) : Chained row (.parens x) :=
    (Postfixed.operand rfl).chained (Nat.le_of_lt loose)
  induction chained generalizing place with
  | signed signed => exact .signed (signed.explicit place)
  | tighter loose _ inductionHypothesis => exact .tighter loose (inductionHypothesis place)
  | left tier operates loose _ _ leftHypothesis rightHypothesis =>
    exact enclosed_cases (.left tier operates loose (leftHypothesis _) (rightHypothesis _))
      (inParens loose _)
  | right tier operates loose _ _ leftHypothesis rightHypothesis =>
    exact enclosed_cases (.right tier operates loose (leftHypothesis _) (rightHypothesis _))
      (inParens loose _)

end

/-! ## Legible expressions -/

/-- Expressions made with registered symbols of leaves and functions that meet a condition, all
    parts of which have a shape that lines are grouped into. -/
inductive Legible (leaf : Expr → Prop) (callable : Function → Nat → Prop) : Expr → Prop where
  | literal {v : Value} : leaf (.literal v) → Legible leaf callable (.literal v)
  | cell {c : Cell} : leaf (.cell c) → Legible leaf callable (.cell c)
  | binary {row : Nat} {o : Operator} {l r : Expr} : standard.Operates row o →
      Chained 0 (.binary o l r) → Legible leaf callable l → Legible leaf callable r →
      Legible leaf callable (.binary o l r)
  | unary {row : Nat} {m : Modifier} {e : Expr} : standard.Modifies row m →
      Chained 0 (.unary m e) → Legible leaf callable e → Legible leaf callable (.unary m e)
  | call {f : Function} {arguments : List Expr} : callable f arguments.length →
      (∀ e ∈ arguments, Legible leaf callable e) → Legible leaf callable (.call f arguments)
  | parens {e : Expr} : Legible leaf callable e → Legible leaf callable (.parens e)

section

variable {leaf : Expr → Prop} {callable : Function → Nat → Prop} {e : Expr}

theorem Legible.chained (legible : Legible leaf callable e) : Chained 0 e := by
  cases legible with
  | literal _ | cell _ | call _ _ | parens _ => exact (Postfixed.operand rfl).chained (Nat.zero_le 8)
  | binary _ chained _ _ | unary _ chained _ => exact chained

/-! A shaped expression is legible if its operands are. -/

theorem Postfixed.legible (postfixed : Postfixed e)
    (operands : ∀ x, .operand x ∈ e.items standard → Legible leaf callable x) :
    Legible leaf callable e := by
  induction postfixed with
  | @operand e operand => exact operands e (by rw [items_operand _ operand]; exact List.mem_cons_self)
  | after side modifies postfixed inductionHypothesis =>
    refine .unary modifies ((Postfixed.after side modifies postfixed).chained (Nat.zero_le 8))
      (inductionHypothesis fun x member => operands x ?_)
    rw [items_after modifies side]
    exact List.mem_append_left _ member

theorem Stepped.legible (stepped : Stepped e)
    (operands : ∀ x, .operand x ∈ e.items standard → Legible leaf callable x) :
    Legible leaf callable e := by
  induction stepped with
  | postfixed postfixed => exact postfixed.legible operands
  | step modifies stepped inductionHypothesis =>
    refine .unary modifies ((Stepped.step modifies stepped).signed.1.chained (Nat.zero_le 8))
      (inductionHypothesis fun x member => operands x ?_)
    rw [items_before modifies (side_of_modifies modifies (by omega))]
    exact List.mem_cons_of_mem _ member

theorem Signed.legible (signed : Signed e)
    (operands : ∀ x, .operand x ∈ e.items standard → Legible leaf callable x) :
    Legible leaf callable e := by
  induction signed with
  | postfixed postfixed => exact postfixed.legible operands
  | sign modifies signed inductionHypothesis =>
    refine .unary modifies ((Signed.sign modifies signed).chained (Nat.zero_le 8))
      (inductionHypothesis fun x member => operands x ?_)
    rw [items_before modifies (side_of_modifies modifies (by omega))]
    exact List.mem_cons_of_mem _ member
  | step modifies signed alone inductionHypothesis =>
    refine .unary modifies ((Signed.step modifies signed alone).chained (Nat.zero_le 8))
      (inductionHypothesis fun x member => operands x ?_)
    rw [items_before modifies (side_of_modifies modifies (by omega))]
    exact List.mem_cons_of_mem _ member
  | power operates stepped signed inductionHypothesis =>
    rw [items_binary operates] at operands
    refine .binary operates ((Signed.power operates stepped signed).chained (Nat.zero_le 8))
      (stepped.legible fun x member => operands x (List.mem_append_left _ member))
      (inductionHypothesis fun x member => operands x ?_)
    exact List.mem_append_right _ (List.mem_cons_of_mem _ member)

theorem Chained.legible {row : Nat} (chained : Chained row e)
    (operands : ∀ x, .operand x ∈ e.items standard → Legible leaf callable x) :
    Legible leaf callable e := by
  induction chained with
  | signed signed => exact signed.legible operands
  | tighter _ _ inductionHypothesis => exact inductionHypothesis operands
  | left tier operates loose left right leftHypothesis rightHypothesis =>
    rw [items_binary operates] at operands
    refine .binary operates ((Chained.left tier operates loose left right).weaken (Nat.zero_le _))
      (leftHypothesis fun x member => operands x (List.mem_append_left _ member))
      (rightHypothesis fun x member => operands x ?_)
    exact List.mem_append_right _ (List.mem_cons_of_mem _ member)
  | right tier operates loose left right leftHypothesis rightHypothesis =>
    rw [items_binary operates] at operands
    refine .binary operates ((Chained.right tier operates loose left right).weaken (Nat.zero_le _))
      (leftHypothesis fun x member => operands x (List.mem_append_left _ member))
      (rightHypothesis fun x member => operands x ?_)
    exact List.mem_append_right _ (List.mem_cons_of_mem _ member)

theorem Legible.explicit {names : String → Cell} {leaf' : Expr → Prop}
    (literal : ∀ v, leaf (.literal v) → leaf' (settled names v))
    (cell : ∀ c, leaf (.cell c) → leaf' (.cell c)) (legible : Legible leaf callable e)
    (place : Place) : Legible leaf' callable (e.explicit names place) := by
  have encloses {needed : Bool} {x : Expr} (legible : Legible leaf' callable x) :
      Legible leaf' callable (enclosed needed x) := enclosed_cases legible (.parens legible)
  have keeps {x : Expr} (chained : Chained 0 x) : Chained 0 (x.explicit names .alone) :=
    chained.explicit .alone
  induction legible generalizing place with
  | @literal v good =>
    have settles := literal v good
    refine encloses ?_
    revert settles
    exact settled_cases (P := fun x => leaf' x → Legible leaf' callable x) names v .literal
      fun _ => .cell
  | cell good => exact .cell (cell _ good)
  | binary operates chained _ _ leftHypothesis rightHypothesis =>
    exact encloses (.binary operates (keeps chained) (leftHypothesis _) (rightHypothesis _))
  | unary modifies chained _ inductionHypothesis =>
    exact encloses (.unary modifies (keeps chained) (inductionHypothesis _))
  | @call f arguments good _ inductionHypothesis =>
    rw [Expr.explicit, explicitAll_eq_map]
    refine .call (by rwa [List.length_map]) fun x member => ?_
    obtain ⟨argument, among, rfl⟩ := List.mem_map.1 member
    exact inductionHypothesis argument among .alone
  | parens _ inductionHypothesis => exact .parens (inductionHypothesis .alone)

end

/-! ## The rendered text -/

theorem toList_parenthesised (needed : Bool) (text : String) :
    (parenthesised needed text).toList =
      if needed then '(' :: (text.toList ++ [')']) else text.toList := by
  cases needed
  · rfl
  · simp [parenthesised]

theorem plain_enclosed (needed : Bool) (e : Expr) :
    (enclosed needed e).plain = if needed then '(' :: (e.plain ++ [')']) else e.plain := by
  cases needed <;> rfl

theorem plain_settled {names : String → Cell} (named : ∀ name, (names name).name = name)
    (v : Value) : (settled names v).plain = v.text.toList := by
  cases v with
  | none => rw [settled, plain, named]; rfl
  | some a =>
    rw [settled]
    split
    · rename_i infinite
      rw [plain, named, Value.text, Number.text_of_isInfinite infinite]
    · rfl

theorem modifierGap_explicit {leaf : Expr → Prop} {callable : Function → Nat → Prop} {e : Expr}
    (legible : Legible leaf callable e) (names : String → Cell) (row : Nat) (side : Side) :
    modifierGap side (e.explicit names (.operandOf (some row) side)) = modifierGap side e := by
  cases legible with
  | @literal v _ =>
    have settles : modifierGap side (settled names v) = "" :=
      settled_cases (P := fun x => modifierGap side x = "") names v rfl fun _ => rfl
    exact enclosed_cases (P := fun x => modifierGap side x = "") settles rfl
  | cell _ => rfl
  | binary _ _ _ _ => exact enclosed_cases (P := fun x => modifierGap side x = "") rfl rfl
  | call _ _ => rfl
  | parens _ => rfl
  | @unary row' m e modifies _ _ =>
    rw [explicit, modifies.row?]
    by_cases same : m.side = side
    · have bare : modificationNeedsParens (some row') m.side (.operandOf (some row) side) = false := by
        rw [same]
        cases side <;> rfl
      rw [bare]
      rfl
    · have none (x : Expr) : modifierGap side (.unary m x) = "" := if_neg same
      rw [none]
      exact enclosed_cases (P := fun x => modifierGap side x = "") (none _) rfl

theorem renderAt_eq_plain {leaf : Expr → Prop} {callable : Function → Nat → Prop} {e : Expr}
    (legible : Legible leaf callable e) {names : String → Cell}
    (named : ∀ name, (names name).name = name) (place : Place) :
    (renderAt standard place e).toList = (e.explicit names place).plain := by
  induction legible generalizing place with
  | literal _ => rw [renderAt, explicit, toList_parenthesised, plain_enclosed, plain_settled named]
  | cell _ => rfl
  | binary _ _ _ _ leftHypothesis rightHypothesis =>
    rw [renderAt, explicit, toList_parenthesised, plain_enclosed]
    simp [plain, leftHypothesis, rightHypothesis]
  | @unary row m e modifies _ legible inductionHypothesis =>
    have gap := modifierGap_explicit legible names row m.side
    rw [renderAt, explicit, toList_parenthesised, plain_enclosed, modifies.row?, plain, gap]
    cases side : m.side <;> simp [inductionHypothesis]
  | @call f arguments _ _ inductionHypothesis =>
    have texts : (arguments.map (renderAt standard .alone)).map String.toList =
        (arguments.map (explicit names .alone)).map plain := by
      rw [List.map_map, List.map_map]
      exact List.map_congr_left fun e member => inductionHypothesis e member .alone
    have rendered : renderAll standard arguments = arguments.map (renderAt standard .alone) :=
      renderAll_eq_map standard arguments
    rw [renderAt, explicit, plain, explicitAll_eq_map, plainAll_eq_map, ← texts, rendered]
    simp [String.toList_intercalate]
  | parens _ inductionHypothesis =>
    rw [renderAt, explicit, plain]
    simp [inductionHypothesis]

end Expr

end Abacus
