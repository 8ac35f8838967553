import Abacus.Proofs.Eval.Unmentioned
import Abacus.Proofs.Session.Calls

/-!
# Redefinition

A definition gives a name and a number of arguments to a new function.  Lines that are parsed from
then on call the new function, but what was parsed before keeps calling the function that it was
parsed with, whose body never changes.
-/

namespace Abacus

/-- The user functions with smaller numbers. -/
def UserFunction.below (n : Nat) : Vocabulary where
  function u := u.id < n

namespace Parse

/-- Every call in a parsed line is one of the function that its name and its number of arguments
    lead to. -/
theorem calls_of_parse {p : Grammar.Plan} {scope : Scope}
    (accepted : p.toGrammar = .ok scope.grammar)
    (keyed : ∀ key f, scope.functions.get? key = some f → f.key = key) {line : String}
    {parsed : Parsed} (parses : parse scope line = .ok parsed) {e : Expr}
    (expr : parsed.expr = some e)
    {f : Function} {es : List Expr} (member : .call f es ∈ e.subexpressions) :
    scope.functions.get? f.key = some f := by
  let Known (e : Expr) : Prop :=
    ∀ f es, .call f es ∈ e.subexpressions → scope.functions.get? f.key = some f
  have composes (_ : scope.Creates parsed.created) : scope.Composes parsed.created Known :=
    { literal := fun _ => by simp [Known, Expr.subexpressions]
      cell := fun _ => by simp [Known, Expr.subexpressions]
      leading := fun _ => by simp [Known, Expr.subexpressions]
      parens := fun inner f es member => by
        rcases List.mem_cons.1 member with impossible | inside
        · cases impossible
        · exact inner f es inside
      call := fun known arguments f es member => by
        rcases List.mem_cons.1 member with same | inside
        · cases same
          rw [keyed _ _ known]
          exact known
        · obtain ⟨e, among, inside⟩ := Expr.mem_subexpressionsAll.1 inside
          exact arguments e among f es inside
      binary := fun _ _ _ left right f es member => by
        rcases List.mem_cons.1 member with impossible | inside
        · cases impossible
        · exact (List.mem_append.1 inside).elim (left f es) (right f es)
      unary := fun _ _ operand f es member => by
        rcases List.mem_cons.1 member with impossible | inside
        · cases impossible
        · exact operand f es inside }
  exact (composed_of_parse accepted parses composes).2 e expr f es member

end Parse

namespace Session

open Eval Parse

variable {p : Grammar.Plan} {g : Grammar} {s s' t : Session} {v : Value}

/-! ## What follows a session -/

/-- The sessions that lines, which may fail, and changes of the settings lead to from a session. -/
inductive Follows (s : Session) : Session → Prop where
  | refl : Follows s s
  | adjust {t : Session} (settings : Settings) : Follows s t → Follows s { t with settings }
  | run {t t' : Session} {budget : Nat} {line : String} {reply : Except LineError Reply} :
      Follows s t → t.run budget line = some (reply, t') → Follows s t'
  | parse {t t' : Session} {line : String} {e : Option Expr} :
      Follows s t → t.parse line = .ok (e, t') → Follows s t'

theorem Stable.follows {P : Session → Value → Prop} (stable : Stable P) (before : P s v)
    (follows : Follows s t) : ∃ w, P t w := by
  induction follows with
  | refl => exact ⟨v, before⟩
  | adjust settings _ inductionHypothesis =>
    obtain ⟨w, between⟩ := inductionHypothesis
    exact ⟨w, stable.adjust settings between⟩
  | run _ runs inductionHypothesis =>
    obtain ⟨w, between⟩ := inductionHypothesis
    exact ⟨_, stable.run between runs⟩
  | parse _ parses inductionHypothesis =>
    obtain ⟨w, between⟩ := inductionHypothesis
    exact ⟨w, stable.parse between parses⟩

/-- Whether the functions that a session has numbered do the same in another one. -/
structure KeepsBodies (s t : Session) : Prop where
  fresh : s.fresh ≤ t.fresh
  bodies : ∀ u : UserFunction, u.id < s.fresh → t.store.body u = s.store.body u

theorem KeepsBodies.trans (first : KeepsBodies s s') (second : KeepsBodies s' t) :
    KeepsBodies s t where
  fresh := Nat.le_trans first.fresh second.fresh
  bodies u less :=
    (second.bodies u (Nat.lt_of_lt_of_le less first.fresh)).trans (first.bodies u less)

theorem KeepsBodies.parse {line : String} {e : Option Expr} (parses : s.parse line = .ok (e, s')) :
    KeepsBodies s s' := by
  obtain ⟨_, _, same⟩ := Fallible.bind_eq_ok.1 parses
  cases same
  exact ⟨Nat.le_add_right _ _, fun _ _ => rfl⟩

theorem KeepsBodies.effect (effect : s.Effect s') : KeepsBodies s s' := by
  cases effect with
  | none | deleteFunction _ | deleteVariable _ _ => exact ⟨Nat.le_refl _, fun _ _ => rfl⟩
  | print parses => exact .parse parses
  | @define _ u _ _ e heads _ _ _ =>
    have new : s.fresh ≤ u.id := (fresh_of_header heads).2
    refine ⟨Nat.le_trans (Nat.le_succ_of_le new) (Nat.le_add_right _ _), fun w less => ?_⟩
    exact (Store.body_withBody s.store u w e).trans (if_neg (by omega))

theorem keepsBodies_stable (s : Session) : Stable fun t _ => KeepsBodies s t where
  adjust _ before := ⟨before.fresh, before.bodies⟩
  effect before effect := before.trans (.effect effect)
  parse before parses := before.trans (.parse parses)
  evaluate before parses evaluates := by
    obtain ⟨⟨_, store⟩, ends, same⟩ := Option.map_eq_some_iff.1 evaluates
    cases same
    have between := before.trans (.parse parses)
    exact ⟨between.fresh,
      fun u less => (Expr.sameBodies_of_eval ends u).trans (between.bodies u less)⟩
  remember w before := by
    cases w with
    | none => exact before
    | some _ => exact ⟨before.fresh, before.bodies⟩

/-! ## Definitions -/

theorem Numbered.store_below {owner : Nat → UserFunction} (numbered : Numbered g owner s) :
    s.store.Uses (UserFunction.below s.fresh) := by
  have below {e : Expr} (uses : e.Uses (owners owner s.fresh)) :
      e.Uses (UserFunction.below s.fresh) :=
    Expr.Uses.weaken (V := owners owner s.fresh) (W := UserFunction.below s.fresh)
      (fun _ _ => True.intro) (fun _ known => known.2.1) (fun _ => id) uses
  exact ⟨fun c => below (numbered.store.1 c), fun u => below (numbered.store.2 u)⟩

theorem uses_others {u : UserFunction} {n : Nat} (new : n ≤ u.id) {e : Expr}
    (uses : e.Uses (UserFunction.below n)) : e.Uses u.others :=
  Expr.Uses.weaken (V := UserFunction.below n) (W := u.others) (fun _ => id)
    (fun _ less => Nat.ne_of_lt (Nat.lt_of_lt_of_le less new)) (fun _ => id) uses

/-- What a definition makes of a session: a new function takes over a name and a number of
    arguments, and whatever was known before has nothing to do with it. -/
structure Supersedes (s s' : Session) (u : UserFunction) : Prop where
  new : s.fresh ≤ u.id
  known : s'.functions.get? (Function.user u).key = some (.user u)
  /-- What calls it: its own body, and lines that are parsed afterwards. -/
  called : ∀ e, (e = s'.store.body u ∨ ∃ line t, s'.parse line = .ok (some e, t)) →
    ∀ f es, .call f es ∈ e.subexpressions → f.key = (Function.user u).key → f = .user u
  /-- What does not call it: all that was stored before, which stays as it was. -/
  definitions : ∀ c, s'.store.definition c = s.store.definition c ∧
    (s.store.definition c).Uses (UserFunction.below s.fresh)
  bodies : ∀ w : UserFunction, w.id < s.fresh → s'.store.body w = s.store.body w ∧
    (s.store.body w).Uses (UserFunction.below s.fresh)
  /-- Reads of variables and calls of functions that were known before give what they gave. -/
  spares : ∀ (e : Expr) (budget : Nat), e.Uses (UserFunction.below s.fresh) →
    (e.eval budget).runOn s'.store =
      ((e.eval budget).runOn s.store).map (withBodyAfter u (s'.store.body u))
  /-- Nothing that happens afterwards changes what any of the functions does. -/
  final : ∀ t, Follows s' t → ∀ w : UserFunction, w.id < s'.fresh → t.store.body w = s'.store.body w

theorem supersedes_of_define (accepted : p.toGrammar = .ok g) (history : History g s v)
    {headerText : List Char} {u : UserFunction} {text : String} {e : Expr} {created : Table String Cell}
    (heads : header s.fresh headerText = .ok u)
    (free : (s.functions.get? (Function.user u).key).any Function.isBuiltin = false)
    (parses : Parse.parse ((s.declare u).bodyScope u) text = .ok ⟨some e, created⟩) :
    s.Supersedes { (s.declare u).withCreated created with store := s.store.withBody u e } u := by
  have effect : s.Effect { (s.declare u).withCreated created with
    store := s.store.withBody u e } := .define heads free parses rfl
  have new : s.fresh ≤ u.id := (fresh_of_header heads).2
  have before := history.protected_bindings accepted
  have after := before.effect accepted effect
  have keyed := fun key f found => (after.functions key f found).1
  have body : (s.store.withBody u e).body u = e :=
    (Store.body_withBody s.store u u e).trans (if_pos rfl)
  have known : (s.declare u).functions.get? (Function.user u).key = some (.user u) :=
    Table.get?_insert_self _ _ _
  obtain ⟨owner, numbered⟩ := history.numbered accepted
  have below := numbered.store_below
  have others : s.store.Uses u.others :=
    ⟨fun c => uses_others new (below.1 c), fun w => uses_others new (below.2 w)⟩
  exact
    { new := new
      known := known
      called := fun x source f es member same => by
        -- The function is declared before its body is parsed, so both kinds of text find it.
        have found : (s.declare u).functions.get? f.key = some f := by
          rcases source with rfl | ⟨line, t, reads⟩
          · rw [body] at member
            have accepted : p.toGrammar = .ok ((s.declare u).bodyScope u).grammar :=
              accepted.trans (congrArg _ before.grammar.symm)
            exact calls_of_parse accepted keyed parses rfl member
          · obtain ⟨parsed, ends, equal⟩ := Fallible.bind_eq_ok.1 reads
            have expr : parsed.expr = some x := congrArg Prod.fst (Except.ok.inj equal)
            exact calls_of_parse (after.grammar ▸ accepted) keyed ends expr member
        rw [same, known] at found
        exact (Option.some.inj found).symm
      definitions := fun c => ⟨rfl, below.1 c⟩
      bodies := fun w less => ⟨(KeepsBodies.effect effect).bodies w less, below.2 w⟩
      spares := fun x budget uses => by
        rw [body]
        exact Expr.eval_ignores e budget (uses_others new uses) s.store others
      final := fun t follows => by
        obtain ⟨_, same⟩ := (keepsBodies_stable _).follows (v := v) ⟨Nat.le_refl _, fun _ _ => rfl⟩
          follows
        exact same.bodies }

/-! ## Main result -/

/-- Redefinition spares earlier callers.  In a session over an accepted grammar, a definition that is
    answered makes a function of a new number, which the name and the number of arguments of the
    header lead to.  Its body and the lines that are parsed afterwards call it under these; but the
    bodies and the definitions that were stored before neither change nor call it, so reading a
    variable and calling a function that were known before gives the same result as before the
    definition, and the bodies of all functions are final. -/
theorem redefinition_spares_earlier_callers (accepted : p.toGrammar = .ok g) (history : History g s v)
    {arguments : List Char} {message : String}
    (defines : (define arguments).runOn s = (.ok message, s')) :
    ∃ headerText text u, Text.splitOnce? (· = '=') arguments = some (headerText, text) ∧
      header s.fresh headerText = .ok u ∧ s.Supersedes s' u := by
  rcases define_cases arguments s with ⟨cause, refuses⟩ | ⟨_, headerText, text, u, e, created, splits,
    heads, free, parses, answers⟩
  · rw [refuses] at defines
    cases defines
  · rw [answers] at defines
    cases defines
    exact ⟨headerText, text, u, splits, heads, supersedes_of_define accepted history heads free parses⟩

/-- A function with one earlier caller is defined again. -/
theorem redefinition_of_called_function_spares : ∃ s v message s' u,
    History Grammar.standard s v ∧
      (define "f(x) = x + 1".toList).runOn s = (.ok message, s') ∧
      (∃ old, s.functions.get? ("f", 1) = some (.user old) ∧ old ≠ u) ∧ s.Supersedes s' u := by
  let old : UserFunction := ⟨5, "f", [⟨4, "x", .variable⟩]⟩
  have computed : ((start Grammar.standard).run 8 ":define f(x) = x").any fun first =>
      (first.2.run 8 ":define g(x) = f(x)").any fun second =>
        ((define "f(x) = x + 1".toList).runOn second.2).1.isOk &&
          decide (second.2.functions.get? ("f", 1) = some (.user old) ∧ old.id < second.2.fresh) := by
    decide +kernel
  obtain ⟨⟨_, between⟩, first, computed⟩ := (Option.any_eq_true _ _).1 computed
  obtain ⟨⟨_, s⟩, second, computed⟩ := (Option.any_eq_true _ _).1 computed
  obtain ⟨answers, computed⟩ := Bool.and_eq_true_iff.1 computed
  have history := ((History.start {}).run first).run second
  cases defines : (define "f(x) = x + 1".toList).runOn s with
  | mk answer s' =>
    cases answer with
    | error cause =>
      rw [defines] at answers
      cases answers
    | ok message =>
      obtain ⟨_, _, u, _, _, supersedes⟩ :=
        redefinition_spares_earlier_callers Grammar.toGrammar_standard history defines
      obtain ⟨known, less⟩ := of_decide_eq_true computed
      refine ⟨s, _, message, s', u, history, defines, ⟨old, known, fun same => ?_⟩, supersedes⟩
      have new := supersedes.new
      rw [← same] at new
      exact absurd less (Nat.not_lt.2 new)

/-- What is shown for lines that are run one after the other, if none of them fails. -/
def shownAll (budget : Nat) (s : Session) : List String → Option (List String)
  | [] => some []
  | line :: rest =>
    match s.run budget line with
    | some (.ok reply, s') => (s'.shownAll budget rest).map (reply.shown :: ·)
    | _ => none

/-- A function and a variable that call `f` keep its first body, while a new line has the second. -/
theorem earlier_callers_keep_old_body :
    (start Grammar.standard).shownAll 20 [":define f(x) = x", ":define g(x) = f(x)", "v := f(1)",
      ":define f(x) = x + 1", "f(1)", "g(1)", "v"] =
    some ["Defined f(x).\n", "Defined g(x).\n", "", "Defined f(x).\n", "2\n", "1\n", "1\n"] := by
  decide +kernel

end Session

end Abacus
