import Abacus.Proofs.Expr.Explicit

/-!
# Glued signs

A sign is written without a gap before an operation, also where that operation
starts with a step: then `+` and `++`, or `-` and `--`, stand side by side and are
cut the other way round.  What is read differs from what is printed exactly there
and at infinite numbers.
-/

namespace Abacus.Expr

open Grammar (standard)

/-- Whether two modifiers written side by side are read in the other order. -/
def glues (m m' : Modifier) : Bool :=
  m.side = .before && m'.side = .before &&
    (m.symbol = "+" && m'.symbol = "++" || m.symbol = "-" && m'.symbol = "--")

def leftModifier? : Expr → Option Modifier
  | .binary _ (.unary m _) _ => some m
  | _ => none

/-- Whether an expression is an operation with a sign glued to its first step. -/
def isGlued : Expr → Bool
  | .unary m e => e.leftModifier?.any (glues m)
  | _ => false

/-- Puts a modifier before an expression in the order in which the text is read. -/
def resigned (m : Modifier) : Expr → Expr
  | .binary o (.unary m' y) r =>
    if glues m m' then .unary m' (.unary m (.binary o y r)) else .unary m (.binary o (.unary m' y) r)
  | e => .unary m e

mutual

/-- The expression that the text of an explicit one reads as. -/
def unglued : Expr → Expr
  | .literal v => .literal v
  | .cell c => .cell c
  | .binary o l r => .binary o l.unglued r.unglued
  | .unary m e => resigned m e.unglued
  | .call f arguments => .call f (ungluedAll arguments)
  | .parens inner => .parens inner.unglued
  | .branches a b => .branches a.unglued b.unglued

def ungluedAll : List Expr → List Expr
  | [] => []
  | e :: rest => e.unglued :: ungluedAll rest

end

theorem ungluedAll_eq_map (es : List Expr) : ungluedAll es = es.map unglued := by
  induction es with
  | nil => rfl
  | cons e rest inductionHypothesis => rw [ungluedAll, inductionHypothesis, List.map_cons]

section

variable {m : Modifier} {e : Expr}

theorem resigned_of_not_glued (apart : (Expr.unary m e).isGlued = false) :
    resigned m e = .unary m e := by
  unfold resigned
  split
  · rename_i o m' y r
    have apart : glues m m' = false := by simpa [isGlued, leftModifier?] using apart
    simp [apart]
  · rfl

theorem resigned_of_glued (glued : (Expr.unary m e).isGlued) : ∃ o m' y r,
    e = .binary o (.unary m' y) r ∧ glues m m' ∧
      resigned m e = .unary m' (.unary m (.binary o y r)) := by
  obtain ⟨m', found, glues⟩ := (Option.any_eq_true _ _).1 glued
  unfold leftModifier? at found
  split at found
  · cases found
    exact ⟨_, m', _, _, rfl, glues, by simp [resigned, glues]⟩
  · cases found

theorem isBinary_resigned : (resigned m e).isBinary = false := by
  unfold resigned
  split
  · split <;> rfl
  · rfl

/-! ## Modifiers that are glued -/

theorem symbol_of_modifies {row : Nat} {side : Side} {entries : List (String × Modifier.Action)}
    (modifies : standard.Modifies row m) (tier : standard.tiers[row]? = some (.modifiers side entries)) :
    m.symbol ∈ entries.map Prod.fst := by
  obtain ⟨roles, found, modifier⟩ := modifies
  obtain ⟨_, action, here, member, _⟩ :=
    (Grammar.fit_of_toGrammar Grammar.toGrammar_standard found).modifier modifier
  cases tier.symm.trans here
  exact List.mem_map_of_mem (f := Prod.fst) member

theorem symbol_of_sign (modifies : standard.Modifies 8 m) : m.symbol ∈ ["-", "+", "!"] :=
  symbol_of_modifies modifies rfl

theorem symbol_of_step (modifies : standard.Modifies 10 m) : m.symbol ∈ ["++", "--", "$"] :=
  symbol_of_modifies modifies rfl

theorem glues_of_step (modifies : standard.Modifies 10 m) (m' : Modifier) :
    glues m m' = false := by
  have symbol := symbol_of_step modifies
  simp only [List.mem_cons, List.not_mem_nil, or_false] at symbol
  rcases symbol with symbol | symbol | symbol <;> simp [glues, symbol]

theorem glues_of_after (side : m.side = .after) (m' : Modifier) : glues m m' = false := by
  simp [glues, side]

theorem isGlued_of_glues (apart : ∀ m', glues m m' = false) : (Expr.unary m e).isGlued = false := by
  rw [isGlued, show glues m = fun _ => false from funext apart]
  cases e.leftModifier? <;> rfl

theorem resigned_step (modifies : standard.Modifies 10 m) (e : Expr) :
    resigned m e = .unary m e :=
  resigned_of_not_glued (isGlued_of_glues (glues_of_step modifies))

theorem resigned_after (side : m.side = .after) (e : Expr) : resigned m e = .unary m e :=
  resigned_of_not_glued (isGlued_of_glues (glues_of_after side))

end

/-! ## Shapes -/

section

variable {e : Expr}

theorem isOperand_unglued (operand : e.isOperand) : e.unglued.isOperand := by
  cases e <;> first | rfl | cases operand

theorem isBinary_unglued (alone : e.isBinary = false) : e.unglued.isBinary = false := by
  cases e with
  | unary m e => exact isBinary_resigned
  | binary _ _ _ => cases alone
  | literal _ | cell _ | call _ _ | parens _ | branches _ _ => rfl

theorem Postfixed.unglued (postfixed : Postfixed e) : Postfixed e.unglued := by
  induction postfixed with
  | operand operand => exact .operand (isOperand_unglued operand)
  | after side modifies _ inductionHypothesis =>
    rw [Expr.unglued, resigned_after side]
    exact .after side modifies inductionHypothesis

theorem Stepped.unglued (stepped : Stepped e) : Stepped e.unglued := by
  induction stepped with
  | postfixed postfixed => exact .postfixed postfixed.unglued
  | step modifies _ inductionHypothesis =>
    rw [Expr.unglued, resigned_step modifies]
    exact .step modifies inductionHypothesis

theorem Signed.resigned {m : Modifier} (signed : Signed e) (modifies : standard.Modifies 8 m) :
    Signed (resigned m e) := by
  cases glued : (Expr.unary m e).isGlued with
  | false =>
    rw [resigned_of_not_glued glued]
    exact .sign modifies signed
  | true =>
    obtain ⟨o, m', y, r, rfl, glues, swapped⟩ := resigned_of_glued glued
    have before : m'.side = .before := by
      simp only [Expr.glues, Bool.and_eq_true, decide_eq_true_eq] at glues
      exact glues.1.2
    rw [swapped]
    cases signed with
    | postfixed postfixed => cases postfixed with | operand operand => cases operand
    | power operates stepped signed =>
      cases stepped with
      | step modifies' stepped =>
        exact .step modifies' (.sign modifies (.power operates stepped signed)) rfl
      | postfixed postfixed =>
        cases postfixed with
        | operand operand => cases operand
        | after side _ _ => exact nomatch before.symm.trans side

theorem Signed.unglued (signed : Signed e) : Signed e.unglued := by
  induction signed with
  | postfixed postfixed => exact .postfixed postfixed.unglued
  | sign modifies _ inductionHypothesis => exact inductionHypothesis.resigned modifies
  | step modifies _ alone inductionHypothesis =>
    rw [Expr.unglued, resigned_step modifies]
    exact .step modifies inductionHypothesis (isBinary_unglued alone)
  | power operates stepped _ inductionHypothesis =>
    exact .power operates stepped.unglued inductionHypothesis

theorem Chained.unglued {row : Nat} (chained : Chained row e) : Chained row e.unglued := by
  induction chained with
  | signed signed => exact .signed signed.unglued
  | tighter loose _ inductionHypothesis => exact .tighter loose inductionHypothesis
  | left tier operates loose _ _ leftHypothesis rightHypothesis =>
    exact .left tier operates loose leftHypothesis rightHypothesis
  | right tier operates loose _ _ leftHypothesis rightHypothesis =>
    exact .right tier operates loose leftHypothesis rightHypothesis

/-! ### Where signs are glued -/

theorem Postfixed.leftModifier?_eq (postfixed : Postfixed e) : e.leftModifier? = none := by
  cases postfixed with
  | operand operand => cases e <;> first | rfl | cases operand
  | after _ _ _ => rfl

theorem leftModifier?_of_not_binary (alone : e.isBinary = false) : e.leftModifier? = none := by
  cases e <;> first | rfl | cases alone

theorem leftModifier?_binary (o : Operator) {l l' : Expr} (r r' : Expr)
    (same : ∀ m x, l = .unary m x → ∃ x', l' = .unary m x')
    (none : (∀ m x, l ≠ .unary m x) → ∀ m x, l' ≠ .unary m x) :
    (Expr.binary o l' r').leftModifier? = (Expr.binary o l r).leftModifier? := by
  cases l with
  | unary m x =>
    obtain ⟨x', rfl⟩ := same m x rfl
    rfl
  | literal _ | cell _ | binary _ _ _ | call _ _ | parens _ | branches _ _ =>
    have other := none fun _ _ impossible => by cases impossible
    cases l' with
    | unary m x => exact absurd rfl (other m x)
    | literal _ | cell _ | binary _ _ _ | call _ _ | parens _ | branches _ _ => rfl

theorem Signed.leftModifier?_unglued (signed : Signed e) :
    e.unglued.leftModifier? = e.leftModifier? := by
  cases signed with
  | postfixed postfixed => rw [postfixed.leftModifier?_eq, postfixed.unglued.leftModifier?_eq]
  | sign _ _ => exact leftModifier?_of_not_binary isBinary_resigned
  | step _ _ _ => exact leftModifier?_of_not_binary isBinary_resigned
  | @power o l r operates stepped _ =>
    refine leftModifier?_binary o _ _ (fun m x same => ?_) fun other m x same => ?_
    · subst same
      cases stepped with
      | step modifies _ => exact ⟨_, resigned_step modifies _⟩
      | postfixed postfixed =>
        cases postfixed with
        | operand operand => cases operand
        | after side _ _ => exact ⟨_, resigned_after side _⟩
    · cases l with
      | unary m x => exact other m x rfl
      | literal _ | cell _ | binary _ _ _ | call _ _ | parens _ | branches _ _ => cases same

theorem Signed.leftModifier?_explicit (signed : Signed e) (names : String → Cell) :
    (e.explicit names (.operandOf (some 8) .before)).leftModifier? = e.leftModifier? := by
  cases signed with
  | postfixed postfixed =>
    rw [postfixed.leftModifier?_eq, (postfixed.explicit _).leftModifier?_eq]
  | sign _ _ => exact leftModifier?_of_not_binary (isBinary_explicit rfl _)
  | step _ _ _ => exact leftModifier?_of_not_binary (isBinary_explicit rfl _)
  | @power o l r operates stepped _ =>
    have bare : operationNeedsParens (some 9) (.operandOf (some 8) .before) = false := rfl
    rw [Expr.explicit, operates.row?, bare]
    refine leftModifier?_binary o _ _ (fun m x same => ?_) fun other m x same => ?_
    · subst same
      have tighter {row : Nat} (modifies : standard.Modifies row m) (tight : 9 < row) (y : Expr)
          (associativity : Option Associativity) :
          ∃ x', (Expr.unary m y).explicit names (.leftOf (some 9) associativity) = .unary m x' := by
        have bare : modificationNeedsParens (some row) m.side
            (.leftOf (some 9) associativity) = false := decide_eq_false (by omega)
        rw [Expr.explicit, modifies.row?, bare]
        exact ⟨_, rfl⟩
      cases stepped with
      | step modifies _ => exact tighter modifies (by omega) _ _
      | postfixed postfixed =>
        cases postfixed with
        | operand operand => cases operand
        | after _ modifies _ => exact tighter modifies (by omega) _ _
    · cases l with
      | unary m x => exact other m x rfl
      | literal v =>
        have operand : ((Expr.literal v).explicit names
            (.leftOf (some 9) (standard.associativity? o.symbol))).isOperand :=
          isOperand_explicit rfl _
        rw [same] at operand
        cases operand
      | binary _ _ _ =>
        cases stepped with
        | postfixed postfixed => cases postfixed with | operand operand => cases operand
      | cell _ | call _ _ | parens _ | branches _ _ => cases same

end

end Abacus.Expr
