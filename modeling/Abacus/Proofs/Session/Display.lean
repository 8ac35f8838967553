import Abacus.Proofs.Expr.Spelled
import Abacus.Proofs.Session.Printing

/-!
# Displayed lines

What a line parses to is displayed with parentheses around every operation.  Against the names and
functions that are known then, that text parses to the same expression, up to parentheses and the
name of void; so the text tells expressions apart.
-/

namespace Abacus

namespace Expr

/-- Whether an expression has no infinite literal. -/
def Finite (e : Expr) : Prop := ∀ x ∈ e.subexpressions, x.isInfinite = false

/-- Whether all finite floating-point literals of an expression have texts that read as them. -/
def FloatsRead (e : Expr) : Prop :=
  ∀ x, .literal (some (.float x)) ∈ e.subexpressions → Binary64.shape x ≠ .infinite false →
    Number.ofText? (Binary64.text x).toList = some (.float x)

end Expr

namespace Session

open Parse Parsing
open Abacus.Expr (Legible)

variable {s s' t : Session} {v : Value} {line : String} {e : Expr}

theorem Orderly.legible_of_parse (orderly : s.Orderly) (parses : s.parse line = .ok (some e, s')) :
    Legible s'.Known (Calls s'.scope) e := by
  obtain ⟨⟨_, created⟩, ends, same⟩ := Fallible.bind_eq_ok.1 parses
  cases same
  obtain ⟨creates, gathered⟩ := gathered_of_parse orderly.sound ends
  exact (gathered e rfl).weaken fun x _ => known_withCreated creates x

theorem legible_congr (names : t.names = s.names) (functions : t.functions = s.functions)
    (legible : Legible t.Known (Calls t.scope) e) : Legible s.Known (Calls s.scope) e := by
  have lookup : t.scope.lookup ∅ = s.scope.lookup ∅ := by
    funext name
    change Option.or none (Option.or (t.names.get? name) _) =
      Option.or none (Option.or (s.names.get? name) _)
    rw [names]
  have known : t.Known = s.Known := by
    funext x
    cases x with
    | cell c =>
      change (_ ∧ t.scope.lookup ∅ c.name = _) = (_ ∧ s.scope.lookup ∅ c.name = _)
      rw [lookup]
    | literal v => cases v <;> rfl
    | binary _ _ _ | unary _ _ | call _ _ | parens _ | branches _ _ => rfl
  have callable : Calls t.scope = Calls s.scope := by
    funext f arity
    change (_ ∧ t.functions.get? _ = _) = (_ ∧ s.functions.get? _ = _)
    rw [functions]
  rwa [known, callable] at legible

theorem displays_of_finite {S : Table String Cell → Prop} (finite : e.Finite) (floats : e.FloatsRead) :
    ∀ x ∈ e.subexpressions, s.Displays S x := by
  intro x member
  unfold Displays
  split
  · rename_i y
    have bounded : Number.isInfinite (.float y) = false := finite _ member
    have shape : Binary64.shape y ≠ .infinite false := of_decide_eq_false bounded
    rw [if_neg shape]
    exact floats y member shape
  · exact True.intro

/-- The displayed text is read where all names and functions in it are known. -/
theorem Orderly.parse_text (orderly : s.Orderly) (legible : Legible s.Known (Calls s.scope) e)
    (finite : e.Finite) (floats : e.FloatsRead) :
    ∃ e', s.parse e.text = .ok (some e', s) ∧ e'.stripped voidCell = e.stripped voidCell := by
  let Nothing (created : Table String Cell) : Prop := created = ∅
  have displayed : Legible (fun x => s.Known x ∧ s.Displays Nothing x) (Calls s.scope) e :=
    legible.weaken fun x member known => ⟨known, displays_of_finite finite floats x member⟩
  have spelled : Legible (ReadsLeaf s.scope Nothing) (Calls s.scope) (e.spelled s.cellOf) := by
    refine displayed.spelled (fun v good => orderly.readsLeaf_settled good.1 good.2) fun c good => ?_
    obtain ⟨⟨named, found⟩, _⟩ := good
    change Option.or none (Option.or (s.names.get? c.name) none) = some c at found
    rw [Option.none_or, Option.or_none] at found
    exact ⟨named, reads_known found⟩
  have text := Expr.text_eq_plain legible orderly.name_cellOf
  obtain ⟨created, parses, rfl⟩ := parse_legible orderly.grammar spelled rfl text
  have stripped : (e.spelled s.cellOf).unglued.stripped (s.cellOf "void") =
      e.stripped (s.cellOf "void") := Expr.stripped_unglued_spelled legible finite
  rw [orderly.cellOf_void] at stripped
  exact ⟨_, Fallible.bind_eq_ok.2 ⟨_, parses, rfl⟩, stripped⟩

/-! ## Main result -/

/-- The displayed text reads back.  What a line parses to, if no literal in it is infinite, is
    displayed as a text that parses against the names and functions that are known then, creates no
    variable, and gives the same expression up to parentheses and the name of void.  So lines that
    are parsed against the same names and functions and displayed alike mean the same up to
    parentheses.  A finite number is taken to be displayed as a text that reads as it. -/
theorem displayed_text_reads_back (history : History Grammar.standard s v)
    (parses : s.parse line = .ok (some e, s')) (finite : e.Finite) (floats : e.FloatsRead) :
    (∃ e', s'.parse e.text = .ok (some e', s') ∧ e'.stripped voidCell = e.stripped voidCell) ∧
    ∀ {t t' : Session} {w : Value} {line' : String} {e' : Expr}, History Grammar.standard t w →
      t.parse line' = .ok (some e', t') → t'.names = s'.names → t'.functions = s'.functions →
      e'.Finite → e'.FloatsRead → e'.text = e.text →
      e'.stripped voidCell = e.stripped voidCell := by
  have orderly : s'.Orderly := (history.parse parses).orderly
  have legible := history.orderly.legible_of_parse parses
  obtain ⟨read, reads, same⟩ := orderly.parse_text legible finite floats
  refine ⟨⟨read, reads, same⟩, fun history' parses' names functions finite' floats' text => ?_⟩
  have legible' := legible_congr names functions (history'.orderly.legible_of_parse parses')
  obtain ⟨read', reads', same'⟩ := orderly.parse_text legible' finite' floats'
  rw [text, reads] at reads'
  cases reads'
  exact same'.symm.trans same

/-- Two lines with gaps, steps behind signs and an argument that is left out. -/
theorem displayed_lines_read_back : ∃ e s' read e' t',
    (start Grammar.standard).parse "z = - -x! 2 (y) - ? max(,1) : ++ y" = .ok (some e, s') ∧
      s'.parse e.text = .ok (some read, s') ∧ read.stripped voidCell = e.stripped voidCell ∧
      s'.parse "z=- -x!*2(y)-?max( , 1 ):++y" = .ok (some e', t') ∧
      e'.stripped voidCell = e.stripped voidCell := by
  have computed : ((start Grammar.standard).parse "z = - -x! 2 (y) - ? max(,1) : ++ y").toOption.any
      fun first => first.1.any fun e => (first.2.parse "z=- -x!*2(y)-?max( , 1 ):++y").toOption.any
        fun second => second.1.any fun e' =>
          (e.subexpressions ++ e'.subexpressions).all (fun x => !isFloat x && !x.isInfinite) &&
            (second.2.names.entries = first.2.names.entries && e'.text = e.text) := by
    decide +kernel
  obtain ⟨⟨_, s'⟩, parses, computed⟩ := Fallible.exists_of_any computed
  obtain ⟨e, rfl, computed⟩ := (Option.any_eq_true _ _).1 computed
  obtain ⟨⟨_, t'⟩, parses', computed⟩ := Fallible.exists_of_any computed
  obtain ⟨e', rfl, computed⟩ := (Option.any_eq_true _ _).1 computed
  obtain ⟨plain, same⟩ := Bool.and_eq_true_iff.1 computed
  obtain ⟨entries, text⟩ := Bool.and_eq_true_iff.1 same
  have plain (x : Expr) (member : x ∈ e.subexpressions ++ e'.subexpressions) :
      isFloat x = false ∧ x.isInfinite = false := by
    simpa using List.all_eq_true.1 plain x member
  have names : t'.names = s'.names := congrArg Table.mk (of_decide_eq_true entries)
  have functions : t'.functions = s'.functions := by
    obtain ⟨_, _, equal⟩ := Fallible.bind_eq_ok.1 parses'
    exact (congrArg (fun result => result.2.functions) (Except.ok.inj equal)).symm
  obtain ⟨⟨read, reads, stripped⟩, alike⟩ := displayed_text_reads_back (.start {}) parses
    (fun x member => (plain x (List.mem_append_left _ member)).2)
    fun x member => Bool.noConfusion (plain _ (List.mem_append_left _ member)).1
  refine ⟨e, s', read, e', t', parses, reads, stripped, parses', ?_⟩
  exact alike ((History.start {}).parse parses) parses' names functions
    (fun x member => (plain x (List.mem_append_right _ member)).2)
    (fun x member => Bool.noConfusion (plain _ (List.mem_append_right _ member)).1)
    (of_decide_eq_true text)

end Session

end Abacus
