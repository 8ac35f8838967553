import Abacus.Proofs.Number.Rational
import Abacus.Proofs.Parse.Numeral
import Abacus.Proofs.Session.Orderly

/-!
# Results typed back

An exact number is shown as a text that a session answers with the number itself.  A negative
number or a fraction is computed anew from the literals of its text; the quotient is in lowest
terms again because a rational number has one reduced number.
-/

namespace Abacus

namespace Expr

/-! ## Evaluation -/

theorem eval_signed (budget : Nat) (n : Int) :
    (signed n).eval (budget + 2) = pure (some (.integer n)) := by
  unfold signed
  split
  · rename_i negative
    have same : Number.integer (-(n.natAbs : Int)) = .integer n := congrArg _ (by omega)
    rw [← same]
    rfl
  · rename_i positive
    have same : Number.integer (n.natAbs : Int) = .integer n := congrArg _ (by omega)
    rw [← same]
    rfl

theorem eval_quotient {n : Int} {d : Nat} (reduced : (Number.fraction n d).Reduced) (budget : Nat) :
    (quotient n d).eval (budget + 3) = pure (some (.fraction n d)) := by
  have divides : (Number.integer n).div (.integer d) = .ok (.fraction n d) := by
    have nonzero : ((d : ℤ) : ℚ) ≠ 0 := by
      have := reduced.1
      exact_mod_cast (by omega : d ≠ 0)
    obtain ⟨a, ends, denotes⟩ :=
      (Number.denotes_integer n).div (Number.denotes_integer d) nonzero
    rw [ends, denotes.unique ⟨reduced, by simp [Number.value?]⟩]
  have rule : ValueRule.div.apply (some (.integer n)) (some (.integer d)) =
      .ok (some (.fraction n d)) := by
    change (Number.div _ _).map some = _
    rw [divides]
    rfl
  have applied (step : Eval Expr) : division.applyWith (eval (budget + 2))
      (.value (some (.integer n))) (.value (some (.integer d))) step =
        pure (.literal (some (.fraction n d))) := by
    change (do return Expr.literal (← Eval.ofExcept (ValueRule.div.apply _ _))) = _
    rw [rule]
    rfl
  have left : Operand.obtain (eval (budget + 2)) true (signed n) =
      pure (.value (some (.integer n))) := by
    rw [Operand.obtain, if_pos rfl, eval_signed]
    rfl
  have right : Operand.obtain (eval (budget + 2)) true (numeral d) =
      pure (.value (some (.integer d))) := rfl
  have stepped : (quotient n d).step (eval (budget + 2)) = pure (.literal (some (.fraction n d))) := by
    rw [quotient, step_binary]
    change (do
      let l ← Operand.obtain (eval (budget + 2)) true (signed n)
      let r ← Operand.obtain (eval (budget + 2)) true (numeral d)
      division.applyWith (eval (budget + 2)) l r (r.stepWith ((numeral d).step _))) = _
    rw [left, right, pure_bind, pure_bind, applied]
  rw [eval_succ]
  change (do
    let e ← (quotient n d).step (eval (budget + 2))
    if division.binds then return none else eval (budget + 2) e) = _
  rw [stepped, pure_bind]
  rfl

end Expr

namespace Session

open Text Lexeme

/-! ## Lines -/

theorem command?_of_head {s : Session} (settings : s.settings = {}) {line : String} {c : Char}
    {rest : List Char} (text : line.toList = c :: rest) (first : c = '-' ∨ c.isDigit) :
    s.command? line = none := by
  have other : isBlank c = false ∧ c ≠ ':' := by
    rcases first with rfl | digit
    · decide
    · refine ⟨isBlank_of_isWordChar (isWordChar_of_isDigit digit), ?_⟩
      rintro rfl
      cases digit
  have trimmed : trimStart line.toList = c :: rest := by
    rw [text]
    exact List.dropWhile_cons_of_neg (by simp [other.1])
  unfold command?
  rw [settings, trimmed]
  change dropPrefix? [':'] (c :: rest) = none
  rw [dropPrefix?, if_neg (Ne.symm other.2)]

theorem exists_head_text {v : Number} (exact' : ∀ x, v ≠ .float x) : ∃ c rest,
    v.text.toList = c :: rest ∧ (c = '-' ∨ c.isDigit) := by
  have digits (n : Nat) (rest : List Char) : ∃ c rest',
      Decimal.digits n ++ rest = c :: rest' ∧ (c = '-' ∨ c.isDigit) := by
    obtain ⟨c, tail, whole⟩ := List.exists_cons_of_ne_nil (Decimal.digits_ne_nil n)
    exact ⟨c, tail ++ rest, by rw [whole]; rfl,
      .inr (Decimal.isDigit_of_mem_digits (by rw [whole]; exact List.mem_cons_self))⟩
  have signed (n : Int) (rest : List Char) : ∃ c rest',
      Decimal.intText n ++ rest = c :: rest' ∧ (c = '-' ∨ c.isDigit) := by
    unfold Decimal.intText
    split
    · exact ⟨'-', _, rfl, .inl rfl⟩
    · exact digits n.natAbs rest
  cases v with
  | integer n => simpa [Number.text] using signed n []
  | fraction n d => simpa [Number.text] using signed n ('/' :: Decimal.digits d)
  | float x => exact absurd rfl (exact' x)

/-- What is parsed without new variables and evaluated without a change of the store is answered
    and remembered. -/
theorem run_of_pure {s : Session} {line : String} (command : s.command? line = none) {e : Expr}
    (parses : Parse.parse s.scope line = .ok ⟨some e, ∅⟩) {budget : Nat} {v : Value}
    (evaluates : e.eval budget = pure v) :
    s.run budget line = some (.ok (.value v), s.remember v) := by
  have parses' : s.parse line = .ok (some e, s) :=
    Fallible.bind_eq_ok.2 ⟨_, parses, rfl⟩
  have ends : s.evaluate (e.eval budget) = some (.ok v, s) := by
    rw [evaluates]
    rfl
  rw [run, command, parses']
  change s.runExpr budget e = _
  unfold runExpr
  rw [ends]
  rfl

/-! ## Main result -/

/-- A shown exact result can be typed back.  With the default settings, after any history, the text
    of a number is answered with the number itself, at every budget that lets evaluations nest three
    deep.  All that the line changes is the latest value: it creates no variable. -/
theorem run_text {s : Session} {w : Value} (history : History Grammar.standard s w)
    (settings : s.settings = {}) {v : Number} (reduced : v.Reduced) (exact' : ∀ x, v ≠ .float x)
    (budget : Nat) :
    s.run (budget + 3) v.text = some (.ok (.value (some v)), s.remember (some v)) ∧
      (s.remember (some v)).names = s.names ∧ (s.remember (some v)).latest = some v := by
  have grammar : s.scope.grammar = Grammar.standard := history.orderly.grammar
  obtain ⟨c, rest, text, first⟩ := exists_head_text exact'
  have command := command?_of_head settings text first
  refine ⟨?_, rfl, ?_⟩
  · cases v with
    | integer n =>
      exact run_of_pure command (Parse.parse_integer grammar n) (Expr.eval_signed (budget + 1) n)
    | fraction n d =>
      exact run_of_pure command (Parse.parse_fraction grammar n d)
        (Expr.eval_quotient reduced budget)
    | float x => exact absurd rfl (exact' x)
  · change ((s.store.define ansCell _).definition ansCell).frozenValue = _
    rw [Store.definition_define, if_pos rfl]
    rfl

theorem run_text_negative_fraction :
    let s := start Grammar.standard
    let v : Number := .fraction (-3) 4
    s.settings = {} ∧ v.Reduced ∧ (∀ x, v ≠ .float x) ∧ v.text = "-3/4" ∧
      s.run 3 "-3/4" = some (.ok (.value (some v)), s.remember (some v)) := by
  intro s v
  have reduced : v.Reduced := ⟨by decide, by decide⟩
  have text : v.text = "-3/4" := by decide +kernel
  exact ⟨rfl, reduced, nofun, text, text ▸ (run_text (.start {}) rfl reduced nofun 0).1⟩

end Session

end Abacus
