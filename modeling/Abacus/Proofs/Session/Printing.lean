import Abacus.Proofs.Expr.Faithful
import Abacus.Proofs.Session.Orderly

/-!
# Printed lines

What a line parses to is printed as a text that parses again, against the same names
and functions.  It parses to the same expression, up to parentheses and the name of
void, exactly if the expression is faithful.
-/

namespace Abacus

namespace Session

open Grammar (standard)
open Parse Parsing
open Abacus.Expr (Legible)

def cellOf (s : Session) (name : String) : Cell :=
  (s.names.get? name).getD ⟨s.fresh, name, .variable⟩

section

variable {s : Session} (orderly : s.Orderly)

include orderly

theorem Orderly.name_cellOf (name : String) : (s.cellOf name).name = name := by
  rw [cellOf]
  cases known : s.names.get? name with
  | none => rfl
  | some c => exact orderly.names name c known

theorem Orderly.cellOf_void : s.cellOf "void" = voidCell := by
  rw [cellOf, orderly.void]
  rfl

omit orderly in
theorem reads_known {S : Table String Cell → Prop} {name : String} {c : Cell}
    (known : s.names.get? name = some c) : Reads S (s.scope.cell name) c := by
  intro created kept
  refine ⟨created, ?_, kept⟩
  have parameter : s.scope.parameters.get? name = none := rfl
  have found : s.scope.names.get? name = some c := known
  unfold Scope.cell
  rw [StateT.run_bind]
  refine Fallible.bind_eq_ok.2 ⟨(created, created), rfl, ?_⟩
  rw [parameter, found]
  rfl

/-- The created variables of a line that mentions at most one name for the first time. -/
def OnlyNew (s : Session) (name : String) (created : Table String Cell) : Prop :=
  created = ∅ ∨ s.names.get? name = none ∧ created = (∅ : Table String Cell).insert name (s.cellOf name)

omit orderly in
theorem reads_new (s : Session) (name : String) :
    Reads (s.OnlyNew name) (s.scope.cell name) (s.cellOf name) := by
  cases known : s.names.get? name with
  | some c =>
    have same : s.cellOf name = c := by rw [cellOf, known]; rfl
    rw [same]
    exact reads_known known
  | none =>
    have parameter : s.scope.parameters.get? name = none := rfl
    have unknown : s.scope.names.get? name = none := known
    have new : s.cellOf name = ⟨s.scope.fresh, name, .variable⟩ := by rw [cellOf, known]; rfl
    intro created kept
    refine ⟨(∅ : Table String Cell).insert name (s.cellOf name), ?_, .inr ⟨known, rfl⟩⟩
    unfold Scope.cell
    rw [StateT.run_bind]
    refine Fallible.bind_eq_ok.2 ⟨(created, created), rfl, ?_⟩
    rcases kept with rfl | ⟨_, rfl⟩
    · rw [parameter, unknown, new]
      rfl
    · rw [parameter, unknown, Table.get?_insert_self]
      rfl

/-! ## Rereading -/

omit orderly in
theorem solid_of_words {text : List Char} (filled : text ≠ []) (words : ∀ c ∈ text, Text.isWordChar c) :
    Solid text := by
  refine ⟨filled, .ofChars fun c member => ⟨words c member, ?_, ?_⟩⟩ <;>
    (rintro rfl; cases words _ member)

/-- Whether a leaf can be read back by a parse that creates variables of some kind: a finite number
    reads as itself, and the name of the infinite one can be created. -/
def Displays (s : Session) (S : Table String Cell → Prop) : Expr → Prop
  | .literal (some (.float x)) => if Binary64.shape x = .infinite false
    then Reads S (s.scope.cell "inf") (s.cellOf "inf")
    else Number.ofText? (Binary64.text x).toList = some (.float x)
  | _ => True

abbrev Known (s : Session) : Expr → Prop := Found s.scope ∅

omit orderly in
theorem known_withCreated {created : Table String Cell} (creates : s.scope.Creates created) (x : Expr)
    (found : Found s.scope created x) : (s.withCreated created).Known x := by
  cases x with
  | literal v => cases v <;> exact found
  | cell c =>
    obtain ⟨named, found⟩ := found
    refine ⟨named, ?_⟩
    have read : (s.names.insertAll created).get? c.name =
        (created.get? c.name).or (s.names.get? c.name) :=
      Table.get?_insertAll s.names created creates.distinct c.name
    change Option.or none (Option.or ((s.names.insertAll created).get? c.name) none) = some c
    rw [read, Option.or_none, Option.none_or]
    change Option.or none (Option.or (s.names.get? c.name) (created.get? c.name)) = some c at found
    rw [Option.none_or] at found
    cases new : created.get? c.name with
    | none =>
      rw [new, Option.or_none] at found
      exact found
    | some d =>
      have unknown : s.names.get? c.name = none := (creates.unknown c.name d new).2
      rw [new, unknown] at found
      exact found
  | binary _ _ _ | unary _ _ | call _ _ | parens _ | branches _ _ => exact found.elim

omit orderly in
theorem readsLeaf_integer {S : Table String Cell → Prop} (m : Nat) :
    ReadsLeaf s.scope S (.literal (some (.integer m))) := by
  change Number.ofText? _ = _ ∧ Solid _
  rw [Number.toList_text_natCast]
  exact ⟨Number.ofText?_digits m, solid_of_words (Decimal.digits_ne_nil m) isWordChar_of_digits⟩

theorem Orderly.readsLeaf_float {S : Table String Cell → Prop} {x : Float}
    (displays : s.Displays S (.literal (some (.float x)))) :
    ReadsLeaf s.scope S (Expr.settled s.cellOf (some (.float x))) := by
  rw [Displays] at displays
  by_cases infinite : Binary64.shape x = .infinite false
  · rw [if_pos infinite] at displays
    have settles : Expr.settled s.cellOf (some (.float x)) = .cell (s.cellOf "inf") :=
      if_pos (decide_eq_true infinite)
    rw [settles, ReadsLeaf, orderly.name_cellOf]
    exact ⟨rfl, displays⟩
  · rw [if_neg infinite] at displays
    have settles : Expr.settled s.cellOf (some (.float x)) = .literal (some (.float x)) :=
      if_neg fun same => infinite (of_decide_eq_true same)
    rw [settles]
    refine ⟨displays, solid_of_words ?_ (Binary64.isWordChar_of_ofText? displays)⟩
    intro empty
    change Number.ofText? (Binary64.text x).toList = _ at displays
    change (Binary64.text x).toList = [] at empty
    rw [empty] at displays
    cases displays

theorem Orderly.readsLeaf_settled {S : Table String Cell → Prop} {v : Value}
    (known : s.Known (.literal v)) (displays : s.Displays S (.literal v)) :
    ReadsLeaf s.scope S (Expr.settled s.cellOf v) := by
  cases v with
  | none =>
    rw [Expr.settled, orderly.cellOf_void]
    exact ⟨rfl, reads_known orderly.void⟩
  | some a =>
    rcases known with ⟨m, rfl⟩ | ⟨x, rfl⟩
    · exact readsLeaf_integer m
    · exact orderly.readsLeaf_float displays

theorem Orderly.parse_render {S : Table String Cell → Prop} (start : S ∅) {e : Expr}
    (legible : Legible s.Known (Calls s.scope) e) (displays : ∀ x ∈ e.subexpressions, s.Displays S x) :
    ∃ created, S created ∧ s.parse (e.render standard) =
      .ok (some (e.explicit s.cellOf .alone).unglued, s.withCreated created) := by
  have displayed : Legible (fun x => s.Known x ∧ s.Displays S x) (Calls s.scope) e :=
    legible.weaken fun x member known => ⟨known, displays x member⟩
  have explicit : Legible (ReadsLeaf s.scope S) (Calls s.scope) (e.explicit s.cellOf .alone) := by
    refine displayed.explicit (fun v good => orderly.readsLeaf_settled good.1 good.2) (fun c good => ?_)
      .alone
    obtain ⟨⟨named, found⟩, _⟩ := good
    change Option.or none (Option.or (s.names.get? c.name) none) = some c at found
    rw [Option.none_or, Option.or_none] at found
    exact ⟨named, reads_known found⟩
  have text := Expr.renderAt_eq_plain legible orderly.name_cellOf .alone
  obtain ⟨created, parses, kept⟩ := parse_legible orderly.grammar explicit start text
  exact ⟨created, kept, Fallible.bind_eq_ok.2 ⟨_, parses, rfl⟩⟩

end

/-! ## Main result -/

/-- What a line parses to is printed as a text that parses again, against the names and functions
    that are known then.  It parses to the same expression, up to parentheses and the name of void,
    exactly if that has no infinite literal and no sign glued to a step.  A finite number is taken
    to be printed as a text that reads as it. -/
theorem printed_line_reads_back {s s' : Session} {v : Value} (history : History standard s v)
    {line : String} {e : Expr} (parses : s.parse line = .ok (some e, s'))
    (displays : ∀ x, .literal (some (.float x)) ∈ e.subexpressions →
      Binary64.shape x ≠ .infinite false →
        Number.ofText? (Binary64.text x).toList = some (.float x)) :
    ∃ e' s'', s'.parse (e.render standard) = .ok (some e', s'') ∧
      (e'.stripped voidCell = e.stripped voidCell ↔ e.Faithful) ∧ (e.Faithful → s'' = s') := by
  have orderly : s'.Orderly := (history.parse parses).orderly
  obtain ⟨⟨_, created⟩, ends, same⟩ := Fallible.bind_eq_ok.1 parses
  cases same
  obtain ⟨creates, gathered⟩ := gathered_of_parse history.orderly.sound ends
  have legible : Legible (s.withCreated created).Known (Calls (s.withCreated created).scope) e :=
    (gathered e rfl).weaken fun x _ => known_withCreated creates x
  have shown {S : Table String Cell → Prop} (new : e.Faithful ∨ Reads S
      ((s.withCreated created).scope.cell "inf") ((s.withCreated created).cellOf "inf")) :
      ∀ x ∈ e.subexpressions, (s.withCreated created).Displays S x := by
    intro x member
    unfold Displays
    split
    · rename_i y
      split
      · rename_i infinite
        refine new.resolve_left fun faithful => ?_
        have finite : Number.isInfinite (.float y) = false := (faithful _ member).1
        exact absurd (decide_eq_true infinite) (by simpa [Number.isInfinite] using finite)
      · rename_i finite
        exact displays y member finite
    · exact True.intro
  have stripped := Expr.stripped_unglued_explicit legible (s.withCreated created).cellOf .alone
  rw [orderly.cellOf_void] at stripped
  by_cases faithful : e.Faithful
  · obtain ⟨new, rfl, rereads⟩ := orderly.parse_render rfl legible (shown (.inl faithful))
    exact ⟨_, _, rereads, stripped, fun _ => rfl⟩
  · obtain ⟨new, _, rereads⟩ := orderly.parse_render (.inl rfl) legible
      (shown (.inr (reads_new (s.withCreated created) "inf")))
    exact ⟨_, _, rereads, stripped, fun impossible => absurd impossible faithful⟩

/-- Whether an expression is a floating-point number. -/
def isFloat : Expr → Bool
  | .literal (some (.float _)) => true
  | _ => false

/-- A line with an operator, a gap and a void operand that are written otherwise when printed. -/
theorem printed_product_reads_back : ∃ e s' e',
    (start standard).parse "x = 2 (y) - (- -z ^ 2) *" = .ok (some e, s') ∧
      s'.parse (e.render standard) = .ok (some e', s') ∧
      e'.stripped voidCell = e.stripped voidCell := by
  have computed : ((start standard).parse "x = 2 (y) - (- -z ^ 2) *").toOption.any fun parsed =>
      parsed.1.any fun e => e.subexpressions.all fun x => !isFloat x && !x.isInfinite && !x.isGlued := by
    decide +kernel
  obtain ⟨⟨_, s'⟩, parses, computed⟩ := Fallible.exists_of_any computed
  obtain ⟨e, rfl, computed⟩ := (Option.any_eq_true _ _).1 computed
  have plain (x : Expr) (member : x ∈ e.subexpressions) :
      isFloat x = false ∧ x.isInfinite = false ∧ x.isGlued = false := by
    simpa [and_assoc] using List.all_eq_true.1 computed x member
  obtain ⟨e', s'', rereads, stripped, same⟩ := printed_line_reads_back (.start {}) parses
    fun x member => Bool.noConfusion (plain _ member).1
  have faithful : e.Faithful := fun x member => (plain x member).2
  exact ⟨e, s', e', parses, same faithful ▸ rereads, stripped.2 faithful⟩

/-- A sign in front of a power that starts with a step is printed right at the step, and what is
    printed parses to another expression. -/
theorem glued_sign_reads_otherwise : ∃ e s' e' s'',
    (start standard).parse "+ ++x ^ 2" = .ok (some e, s') ∧
      s'.parse (e.render standard) = .ok (some e', s'') ∧
      e'.stripped voidCell ≠ e.stripped voidCell := by
  have computed : ((start standard).parse "+ ++x ^ 2").toOption.any fun parsed =>
      parsed.1.any fun e => (parsed.2.parse (e.render standard)).toOption.any fun reread =>
        reread.1.any fun e' => (e'.stripped voidCell).text = "(++(+(x ^ 2)))" &&
          (e.stripped voidCell).text = "(+((++x) ^ 2))" := by
    decide +kernel
  obtain ⟨⟨_, s'⟩, parses, computed⟩ := Fallible.exists_of_any computed
  obtain ⟨e, rfl, computed⟩ := (Option.any_eq_true _ _).1 computed
  obtain ⟨⟨_, s''⟩, rereads, computed⟩ := Fallible.exists_of_any computed
  obtain ⟨e', rfl, computed⟩ := (Option.any_eq_true _ _).1 computed
  obtain ⟨after, before⟩ := Bool.and_eq_true_iff.1 computed
  have texts := (of_decide_eq_true after).symm
  refine ⟨e, s', e', s'', parses, rereads, fun same => ?_⟩
  rw [same, of_decide_eq_true before] at texts
  exact absurd texts (by decide)

end Session

end Abacus
