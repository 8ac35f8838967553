import Abacus.Grammar.Registry

/-!
# The standard grammar

Twelve tiers, from assignment to the modifiers written behind an operand.  Minus
in front of an operand binds looser than `^`, so `-2^2` is `-4`; operands that
stand side by side are multiplied.
-/

namespace Abacus.Grammar

/-- The tiers of the standard grammar, ready to be changed. -/
def Plan.standard : Plan where
  tiers := [
    .operators .right [⟨"=", .assign⟩, ⟨":=", .bind⟩, ⟨"+=", .update .add⟩,
      ⟨"-=", .update .sub⟩, ⟨"*=", .update .mul⟩, ⟨"/=", .update .div⟩,
      ⟨"%=", .update .floorMod⟩, ⟨"^=", .update .pow⟩],
    .operators .right [⟨"?", .condition⟩, ⟨":", .alternatives⟩],
    .operators .left [⟨"||", .disjunction⟩],
    .operators .left [⟨"&&", .conjunction⟩],
    .operators .left [⟨"==", .combine .equal⟩, ⟨"!=", .combine .unequal⟩],
    .operators .left [⟨"<", .combine .less⟩, ⟨">", .combine .greater⟩,
      ⟨"<=", .combine .lessOrEqual⟩, ⟨">=", .combine .greaterOrEqual⟩],
    .operators .left [⟨"+", .combine .add⟩, ⟨"-", .combine .sub⟩],
    .operators .left [⟨"*", .combine .mul⟩, ⟨"/", .combine .div⟩, ⟨"//", .combine .floorDiv⟩,
      ⟨"%", .combine .floorMod⟩],
    .modifiers .before [("-", .transform UnaryRule.negate), ("+", .transform UnaryRule.same),
      ("!", .transform UnaryRule.not)],
    .operators .right [⟨"^", .combine .pow⟩],
    .modifiers .before [("++", .increase 1), ("--", .increase (-1)), ("$", .definition)],
    .modifiers .after [("!", .transform UnaryRule.factorial), ("++", .increase 1),
      ("--", .increase (-1))]]
  default := "*"

def standardRoles : Table String Roles :=
  match registerTiers 0 ∅ Plan.standard.tiers with
  | .ok roles => roles
  | .error _ => ∅

/-- The standard grammar. -/
def standard : Grammar where
  tiers := Plan.standard.tiers
  roles := standardRoles
  default := ⟨7, ⟨"*", .combine .mul⟩⟩

theorem toGrammar_standard : Plan.standard.toGrammar = .ok standard := by
  rfl

end Abacus.Grammar
