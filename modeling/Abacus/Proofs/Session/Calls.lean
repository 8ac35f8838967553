import Abacus.Proofs.Eval.Substitution
import Abacus.Proofs.Session.Numbering

/-!
# Calls in sessions

A session gives every function a number of its own, so no other function is ever called under it.
With this, a call of a function that treats its parameters as values means its body with the
arguments put in for them.
-/

namespace Abacus

namespace Expr

mutual

theorem Uses.of_mem {V : Vocabulary} {x : Expr} : ∀ {e : Expr}, e.Uses V → x ∈ e.subexpressions →
    x.Uses V
  | .literal _, uses, member | .cell _, uses, member => by
    rwa [List.mem_singleton.1 member]
  | .binary _ _ _, uses, member | .branches _ _, uses, member => by
    rcases List.mem_cons.1 member with rfl | inside
    · exact uses
    · rcases List.mem_append.1 inside with left | right
      · exact Uses.of_mem uses.1 left
      · exact Uses.of_mem uses.2 right
  | .unary _ _, uses, member => by
    rcases List.mem_cons.1 member with rfl | operand
    · exact uses
    · exact Uses.of_mem uses.2 operand
  | .call _ _, uses, member => by
    rcases List.mem_cons.1 member with rfl | argument
    · exact uses
    · exact AllUse.of_mem uses.2 argument
  | .parens inner, uses, member => by
    rcases List.mem_cons.1 member with rfl | inside
    · exact uses
    · exact Uses.of_mem (e := inner) uses inside

theorem AllUse.of_mem {V : Vocabulary} {x : Expr} :
    ∀ {es : List Expr}, AllUse V es → x ∈ subexpressionsAll es → x.Uses V
  | _ :: _, uses, member => by
    rcases List.mem_append.1 member with first | later
    · exact Uses.of_mem uses.1 first
    · exact AllUse.of_mem uses.2 later

end

end Expr

namespace Session

open Eval Fallible Parse

theorem Numbered.identifies {g : Grammar} {owner : Nat → UserFunction} {s : Session}
    (numbered : Numbered g owner s) {key : String × Nat} {u : UserFunction}
    (known : s.functions.get? key = some (.user u)) : s.store.Identifies u := by
  have owns : owner u.id = u := (numbered.functions key u known).1
  have alone {e : Expr} (uses : e.Uses (owners owner s.fresh)) : u.AloneIn e := by
    intro w es member same
    obtain ⟨other, _⟩ := (uses.of_mem member).1 w rfl
    rw [← other, same, owns]
  exact ⟨fun c => alone (numbered.store.1 c), fun w => alone (numbered.store.2 w)⟩

/-! ## Main result -/

/-- Calls mean substitution.  Let a function bind nothing in its body and change no parameter, and
    let no definition and no other body mention its parameters.  If a call with the right number of
    arguments gives a value, evaluating the body with every parameter replaced by the literal of its
    argument, in the store before the call, gives the same value, and all cells stand for the same
    in the end.  The function may call itself and change other cells.  Its number must stand for it
    alone, which it does for every function of a session. -/
theorem calls_mean_substitution :
    (∀ (u : UserFunction) (s : Store), u.TakesValues s → s.Identifies u →
      ∀ (arguments : List Value), arguments.length = u.parameters.length →
      ∀ (budget : Nat) (v : Value) (t : Store),
        ((Function.user u).call (Expr.eval budget) arguments).runOn s = some (.ok v, t) →
        ∃ t', (((s.body u).instantiate (u.parameters.zip (arguments.map Expr.literal))).eval
            budget).runOn s = some (.ok v, t') ∧ ∀ c, t'.definition c = t.definition c) ∧
    ∀ (p : Grammar.Plan) (g : Grammar) (s : Session) (v : Value), p.toGrammar = .ok g →
      History g s v → ∀ key u, s.functions.get? key = some (.user u) → s.store.Identifies u := by
  constructor
  · intro u s takes identified arguments count budget v t ends
    exact takes.substitutes identified count ends
  · intro p g s v accepted history key u known
    obtain ⟨owner, numbered⟩ := history.numbered accepted
    exact numbered.identifies known

/-- A function that calls itself and adds its argument to a total, which is 5 before. -/
theorem counting_call_substitutes :
    let total : Cell := ⟨4, "total", .variable⟩
    let n : Cell := ⟨5, "n", .variable⟩
    let f : UserFunction := ⟨6, "f", [n]⟩
    let add : Expr := .binary ⟨"+=", .update .add⟩ (.cell total) (.cell n)
    let rest : Expr := .call (.user f)
      [.binary ⟨"-", .combine .sub⟩ (.cell n) (.literal (some (.integer 1)))]
    let body : Expr := .binary ⟨"?", .condition⟩ (.cell n) (.binary ⟨":", .alternatives⟩
      (.binary ⟨"+", .combine .add⟩ add rest) (.literal (some (.integer 0))))
    let s : Store := (Store.define {} total (.literal (some (.integer 5)))).withBody f body
    (∃ t, ((body.instantiate [(n, .literal (some (.integer 1)))]).eval 20).runOn s =
        some (.ok (some (.integer 6)), t) ∧ t.definition total = .literal (some (.integer 6))) ∧
      ∃ (s : Session) (key : String × Nat) (u : UserFunction),
        s.functions.get? key = some (.user u) ∧ s.store.Identifies u := by
  intro total n f add rest body s
  obtain ⟨substitutes, identifies⟩ := calls_mean_substitution
  constructor
  · have definition (c : Cell) : ∃ v, s.definition c = .literal v := by
      show ∃ v, (Store.define {} total _).definition c = .literal v
      rw [Store.definition_define]
      split
      · exact ⟨_, rfl⟩
      · exact ⟨none, rfl⟩
    have other (w : UserFunction) : s.body w = body ∨ s.body w = .literal none := by
      rw [Store.body_withBody]
      split
      · exact .inl rfl
      · exact .inr rfl
    have absent (v : Value) : ¬ f.OccursIn (.literal v) := by
      simp [UserFunction.OccursIn, Expr.subexpressions]
    have takes : f.TakesValues s := by
      refine ⟨fun o l r member => ?_, fun o l r member changes => ?_, fun m e member => ?_,
        fun c => ?_, fun w another => ?_⟩
      · simp [s, body, add, rest, Store.body_withBody, Expr.subexpressions,
          Expr.subexpressionsAll] at member
        rcases member with ⟨rfl, _⟩ | ⟨rfl, _⟩ | ⟨rfl, _⟩ | ⟨rfl, _⟩ | ⟨rfl, _⟩ <;> rfl
      · rintro ⟨c, isCell, p, parameter, same⟩
        cases List.mem_singleton.1 parameter
        simp [s, body, add, rest, Store.body_withBody, Expr.subexpressions,
          Expr.subexpressionsAll] at member
        rcases member with ⟨rfl, rfl, _⟩ | ⟨rfl, rfl, _⟩ | ⟨rfl, rfl, _⟩ | ⟨rfl, rfl, _⟩ |
            ⟨rfl, rfl, _⟩ <;>
          cases isCell <;> first | (cases same; done) | cases changes
      · simp [s, body, add, rest, Store.body_withBody, Expr.subexpressions,
          Expr.subexpressionsAll] at member
      · obtain ⟨v, equal⟩ := definition c
        rw [equal]
        exact absent v
      · have empty : s.body w = .literal none := by
          rw [Store.body_withBody, if_neg (Ne.symm another)]
          rfl
        rw [empty]
        exact absent none
    have alone (v : Value) : f.AloneIn (.literal v) := by
      simp [UserFunction.AloneIn, Expr.subexpressions]
    have identified : s.Identifies f := by
      refine ⟨fun c => ?_, fun w => ?_⟩
      · obtain ⟨v, equal⟩ := definition c
        rw [equal]
        exact alone v
      · rcases other w with equal | equal <;> rw [equal]
        · intro u es member _
          simp [body, add, rest, Expr.subexpressions, Expr.subexpressionsAll] at member
          exact member.1
        · exact alone none
    have computed : (((Function.user f).call (Expr.eval 20) [some (.integer 1)]).runOn s).any
        fun outcome => (outcome.1.toOption.any fun v => Expr.isInteger 6 (.literal v)) &&
          (outcome.2.definition total).isInteger 6 := by
      decide +kernel
    obtain ⟨⟨r, t⟩, ends, six⟩ := (Option.any_eq_true _ _).1 computed
    obtain ⟨answer, value⟩ := Bool.and_eq_true_iff.1 six
    cases r with
    | error cause => cases answer
    | ok v =>
      cases Expr.eq_of_isInteger answer
      obtain ⟨t', result, same⟩ := substitutes f s takes identified _ rfl 20 _ t ends
      exact ⟨t', result, (same total).trans (Expr.eq_of_isInteger value)⟩
  · let u : UserFunction := ⟨5, "f", [⟨4, "x", .variable⟩]⟩
    have computed : ((Session.start Grammar.standard).run 8 ":define f(x) = x").any fun first =>
        first.2.functions.get? ("f", 1) = some (.user u) := by
      decide +kernel
    obtain ⟨⟨reply, t⟩, defines, isUser⟩ := (Option.any_eq_true _ _).1 computed
    have known := of_decide_eq_true isUser
    have history := (History.start {}).run defines
    exact ⟨t, _, u, known, identifies _ _ t _ Grammar.toGrammar_standard history _ u known⟩

end Session

end Abacus
