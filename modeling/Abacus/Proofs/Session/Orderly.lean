import Abacus.Proofs.Parse.Gathering
import Abacus.Proofs.Session.Protected

/-!
# Orderly sessions

However a session of the standard grammar is used, its names lead to cells and
functions of these names, and `void` and `ans` stay what they are.
-/

namespace Abacus

namespace Session

open Grammar (standard)
open Parse

/-- Sessions of the standard grammar in which everything is kept under its own name. -/
structure Orderly (s : Session) : Prop where
  grammar : s.grammar = standard
  names : ∀ name c, s.names.get? name = some c → c.name = name
  functions : ∀ key f, s.functions.get? key = some f → f.name = key.1
  void : s.names.get? "void" = some voidCell
  ans : s.names.get? "ans" = some ansCell

theorem Protected.orderly {s : Session} {v : Value} (safe : Protected standard s v) :
    s.Orderly where
  grammar := safe.grammar
  names name c known := (safe.names name c known).1
  functions key f known := congrArg Prod.fst (safe.functions key f known).1
  void := safe.cells (voidCell, .void) (by simp [constants])
  ans := safe.cells (ansCell, .void) (by simp [constants])

theorem History.orderly {s : Session} {v : Value} (history : History standard s v) : s.Orderly :=
  (history.protected_bindings Grammar.toGrammar_standard).orderly

theorem Orderly.sound {s : Session} (orderly : s.Orderly) : s.scope.Sound where
  grammar := orderly.grammar
  parameters _ _ impossible := by cases impossible
  names := orderly.names
  functions := orderly.functions
  leading c leads := by
    cases eq_ansCell_of_leads leads
    exact ⟨rfl, rfl, orderly.ans⟩

end Session

end Abacus
