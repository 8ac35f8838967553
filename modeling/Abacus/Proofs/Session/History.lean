import Abacus.Proofs.Eval.Outcome
import Abacus.Proofs.Session.Commands

/-!
# Histories of sessions

A session comes about by running and parsing lines and by changing the settings.  What a
command does, what a line is parsed to, and what an evaluation does to the store is all
that has to be looked at to see that every history keeps something.
-/

namespace Abacus.Session

/-- The latest present value after a reply. -/
def Reply.latest (before : Value) : Except LineError Reply → Value
  | .ok (.value (some a)) => some a
  | _ => before

/-- The sessions over a grammar that lines, which may fail, and changes of the settings lead to,
    with the latest present value that a line of them was evaluated to. -/
inductive History (g : Grammar) : Session → Value → Prop where
  | start (settings : Settings) : History g { Session.start g with settings } none
  | adjust {s : Session} {v : Value} (settings : Settings) : History g s v →
      History g { s with settings } v
  | run {s s' : Session} {v : Value} {budget : Nat} {line : String} {reply : Except LineError Reply} :
      History g s v → s.run budget line = some (reply, s') → History g s' (Reply.latest v reply)
  | parse {s s' : Session} {v : Value} {line : String} {e : Option Expr} :
      History g s v → s.parse line = .ok (e, s') → History g s' v

theorem start_all {P : Expr → Prop} (g : Grammar) (literal : ∀ v, P (.literal v)) :
    (start g).store.All P := by
  have nothing : Store.All P {} := ⟨fun _ => literal none, fun _ => literal none⟩
  refine nothing.defineAll ?_
  simp only [constants, List.forall_mem_cons]
  exact ⟨literal _, literal _, literal _, literal _, fun _ impossible => by cases impossible⟩

/-- The conditions under which whatever a session does keeps a property of sessions and latest
    values. -/
structure Stable (P : Session → Value → Prop) : Prop where
  adjust {s : Session} {v : Value} (settings : Settings) : P s v → P { s with settings } v
  effect {s s' : Session} {v : Value} : P s v → s.Effect s' → P s' v
  parse {s s' : Session} {v : Value} {line : String} {e : Option Expr} : P s v →
    s.parse line = .ok (e, s') → P s' v
  evaluate {s t s' : Session} {v : Value} {line : String} {e : Expr} {budget : Nat}
    {result : Except EvalError Value} : P s v → s.parse line = .ok (some e, t) →
    t.evaluate (e.eval budget) = some (result, s') → P s' v
  remember {s : Session} {v : Value} (w : Value) : P s v →
    P (s.remember w) (Reply.latest v (.ok (.value w)))

/-- The conditions under which every history keeps a property of sessions and latest values. -/
structure Kept (g : Grammar) (P : Session → Value → Prop) : Prop extends Stable P where
  start (settings : Settings) : P { Session.start g with settings } none

variable {g : Grammar} {P : Session → Value → Prop} {s s' : Session} {v : Value}

theorem Stable.run (kept : Stable P) (before : P s v) {budget : Nat} {line : String}
    {reply : Except LineError Reply} (runs : s.run budget line = some (reply, s')) :
    P s' (Reply.latest v reply) := by
  unfold Session.run at runs
  split at runs
  · rename_i text _
    have ending := ending_of_runCommand text s
    split at runs
    · rename_i answers
      rw [answers] at ending
      cases runs
      cases ending with
      | answered _ effect => exact kept.effect before effect
    · rename_i answers
      rw [answers] at ending
      cases runs
      cases ending with
      | refused _ => exact before
  · split at runs
    · rename_i parses
      obtain ⟨⟨result, next⟩, evaluates, runs⟩ := Option.bind_eq_some_iff.1 runs
      have after := kept.evaluate before parses evaluates
      cases result with
      | error cause =>
        cases runs
        exact after
      | ok w =>
        cases runs
        exact kept.remember w after
    · rename_i parses
      cases runs
      exact kept.parse before parses
    · cases runs
      exact before

theorem History.keeps (kept : Kept g P) (history : History g s v) : P s v := by
  induction history with
  | start settings => exact kept.start settings
  | adjust settings _ inductionHypothesis => exact kept.adjust settings inductionHypothesis
  | run _ runs inductionHypothesis => exact kept.toStable.run inductionHypothesis runs
  | parse _ parses inductionHypothesis => exact kept.parse inductionHypothesis parses

end Abacus.Session
