import Abacus.Proofs.Eval.Frame
import Abacus.Proofs.Parse.Mention
import Abacus.Proofs.Session.History

/-!
# Protected bindings

Whatever lines a session runs and whatever settings are changed in between, the names of the
constants and the builtin functions keep their meanings.  A variable that is assigned to,
and a parameter that is bound, never has the number of a constant, and commands refuse to
redefine or to delete what is protected.
-/

namespace Abacus

open Eval Fallible Parse

namespace Session

/-! ## Evaluations -/

/-- Cells and functions that leave the constants alone: a cell that can be assigned to and a
    parameter have other numbers. -/
def harmless : Vocabulary where
  cell c := c.kind = .variable → constants.length ≤ c.id
  function u := ∀ c ∈ u.parameters, constants.length ≤ c.id

theorem harmless_spares : harmless.Spares (· < constants.length) where
  cell _ other isVariable := Nat.not_lt.2 (other isVariable)
  function _ others c member := Nat.not_lt.2 (others c member)

/-! ## Sessions -/

/-- Sessions over a grammar in which everything is kept under its own name, the constants and the
    builtin functions are what they were, and the latest value is `v`. -/
structure Protected (g : Grammar) (s : Session) (v : Value) : Prop where
  grammar : s.grammar = g
  names : ∀ name c, s.names.get? name = some c → c.name = name ∧ harmless.cell c
  functions : ∀ key f, s.functions.get? key = some f →
    f.key = key ∧ ∀ u, f = .user u → harmless.function u
  cells : ∀ entry ∈ constants, s.names.get? entry.1.name = some entry.1
  builtins : ∀ b : Builtin, s.functions.get? (b.name, b.arity) = some (.builtin b)
  store : s.store.Uses harmless
  definitions : ∀ entry ∈ constants, entry.1 ≠ ansCell → s.store.definition entry.1 = entry.2
  latest : s.store.definition ansCell = .literal v
  fresh : constants.length ≤ s.fresh

theorem id_lt_of_constants : ∀ entry ∈ constants, entry.1.id < constants.length := by decide

theorem id_ne_of_constants : ∀ entry ∈ constants, entry.1 ≠ ansCell → ansCell.id ≠ entry.1.id := by
  decide

theorem get?_of_constants (g : Grammar) :
    ∀ entry ∈ constants, (start g).names.get? entry.1.name = some entry.1 := by
  change ∀ entry ∈ constants,
    (Table.ofList (constants.map fun known => (known.1.name, known.1))).get? entry.1.name =
      some entry.1
  decide

theorem definition_of_constants (g : Grammar) :
    ∀ entry ∈ constants, (start g).store.definition entry.1 = entry.2 := by
  simp only [constants, List.forall_mem_cons]
  exact ⟨rfl, rfl, rfl, rfl, fun _ impossible => by cases impossible⟩

theorem kind_of_constants : ∀ entry ∈ constants, entry.1.kind = .constant := by decide

theorem eq_ansCell_of_leads {s : Session} {c : Cell} (leads : s.scope.leading = some c) :
    c = ansCell := by
  rw [scope] at leads
  dsimp only at leads
  split at leads
  · exact (Option.some.inj leads).symm
  · cases leads

/-! ## Headers -/

theorem fresh_of_parameterCells {fresh : Nat} {cells result : List Cell} {texts : List (List Char)}
    (before : ∀ c ∈ cells, fresh ≤ c.id ∧ c.id < fresh + cells.length)
    (reads : parameterCells fresh cells texts = .ok result) :
    ∀ c ∈ result, fresh ≤ c.id ∧ c.id < fresh + result.length := by
  induction texts generalizing cells with
  | nil =>
    cases reads
    exact before
  | cons text rest inductionHypothesis =>
    rw [parameterCells] at reads
    split at reads
    · cases reads
    · split at reads
      · cases reads
      · refine inductionHypothesis (fun c member => ?_) reads
        rw [List.length_append, List.length_singleton]
        rcases List.mem_append.1 member with member | member
        · obtain ⟨new, less⟩ := before c member
          exact ⟨new, Nat.lt_succ_of_lt less⟩
        · rw [List.mem_singleton.1 member]
          exact ⟨Nat.le_add_right _ _, Nat.lt_succ_self _⟩

/-- The numbers of a function and of its parameters are new, and the function has the last one. -/
theorem fresh_of_header {fresh : Nat} {text : List Char} {u : UserFunction}
    (heads : header fresh text = .ok u) :
    (∀ c ∈ u.parameters, fresh ≤ c.id ∧ c.id < u.id) ∧ fresh ≤ u.id := by
  unfold header at heads
  split at heads
  · cases heads
  · dsimp only at heads
    split at heads
    · cases heads
    · obtain ⟨cells, reads, same⟩ := bind_eq_ok.1 heads
      cases same
      exact ⟨fresh_of_parameterCells (fun _ impossible => by cases impossible) reads,
        Nat.le_add_right _ _⟩

namespace Protected

variable {g : Grammar} {s s' : Session} {v : Value}

theorem start (g : Grammar) (settings : Settings) : Protected g { Session.start g with settings } none where
  grammar := rfl
  names := Table.forall_ofList_map fun entry among => ⟨rfl, fun isVariable => by
    rw [kind_of_constants entry among] at isVariable
    cases isVariable⟩
  functions := Table.forall_ofList_map fun _ _ => ⟨rfl, fun _ impossible => by cases impossible⟩
  cells := get?_of_constants g
  builtins b := by cases b <;> rfl
  store := start_all g fun _ => True.intro
  definitions entry among _ := definition_of_constants g entry among
  latest := definition_of_constants g (ansCell, .void) (by simp [constants])
  fresh := Nat.le_refl _

theorem keepsTo (safe : Protected g s v) : s.scope.KeepsTo harmless where
  parameters _ _ impossible := by cases impossible
  names name c known := (safe.names name c known).2
  functions key u known := (safe.functions key _ known).2 u rfl
  leading c leads := by
    cases eq_ansCell_of_leads leads
    exact fun isVariable => by cases isVariable
  modifiers _ := True.intro

theorem adjust (safe : Protected g s v) (settings : Settings) : Protected g { s with settings } v :=
  { safe with }

theorem withCreated (safe : Protected g s v) {scope : Scope} (names : scope.names = s.names)
    (fresh : constants.length ≤ scope.fresh) {created : Table String Cell}
    (creates : scope.Creates created) : Protected g (s.withCreated created) v := by
  have read (name : String) : (s.withCreated created).names.get? name =
      (created.get? name).or (s.names.get? name) :=
    Table.get?_insertAll s.names created creates.distinct name
  refine { safe with
    names := fun name c found => ?_
    cells := fun entry among => ?_
    fresh := Nat.le_trans safe.fresh (Nat.le_add_right _ _) }
  · rw [read] at found
    rcases Option.or_eq_some_iff.1 found with new | ⟨_, known⟩
    · exact ⟨creates.named name c new,
        fun _ => Nat.le_trans fresh (creates.new name c new).2⟩
    · exact safe.names name c known
  · have known := safe.cells entry among
    rw [read]
    cases new : created.get? entry.1.name with
    | none => exact known
    | some d =>
      -- Only names that were unknown are created, and the constants are known.
      have unknown := (creates.unknown _ d new).2
      rw [names, known] at unknown
      cases unknown

section

variable {p : Grammar.Plan} (accepted : p.toGrammar = .ok g)
include accepted

theorem parse (safe : Protected g s v) {line : String} {e : Option Expr}
    (parses : s.parse line = .ok (e, s')) :
    Protected g s' v ∧ ∀ e' ∈ e, e'.Uses harmless := by
  obtain ⟨parsed, ends, same⟩ := bind_eq_ok.1 parses
  cases same
  obtain ⟨creates, uses⟩ := uses_of_parse (safe.grammar ▸ accepted) safe.keepsTo ends
    fun _ _ fresh _ _ => Nat.le_trans safe.fresh fresh
  exact ⟨safe.withCreated rfl safe.fresh creates, uses⟩

omit accepted in
theorem declare (safe : Protected g s v) {u : UserFunction}
    (parameters : ∀ c ∈ u.parameters, constants.length ≤ c.id) (id : constants.length ≤ u.id)
    (free : (s.functions.get? (Function.user u).key).any Function.isBuiltin = false) :
    Protected g (s.declare u) v where
  grammar := safe.grammar
  names := safe.names
  functions := Table.forall_insert safe.functions
    ⟨rfl, fun _ same => by cases same; exact parameters⟩
  cells := safe.cells
  builtins b := by
    have other : (Function.user u).key ≠ (b.name, b.arity) := by
      intro same
      rw [same, safe.builtins b] at free
      cases free
    exact (Table.get?_insert_of_ne _ _ other).trans (safe.builtins b)
  store := safe.store
  definitions := safe.definitions
  latest := safe.latest
  fresh := Nat.le_succ_of_le id

omit accepted in
theorem bodyScope_keepsTo (safe : Protected g s v) {u : UserFunction}
    (parameters : ∀ c ∈ u.parameters, constants.length ≤ c.id) :
    (s.bodyScope u).KeepsTo harmless :=
  { safe.keepsTo with
    parameters := Table.forall_ofList_map fun c among _ => parameters c among
    leading := fun _ impossible => by cases impossible }

theorem effect (safe : Protected g s v) (effect : s.Effect s') : Protected g s' v := by
  cases effect with
  | none => exact safe
  | print parses => exact (safe.parse accepted parses).1
  | @define headerText u text parsed e heads free parses body =>
    obtain ⟨parameters, id⟩ := fresh_of_header heads
    have parameters (c) (member : c ∈ u.parameters) : constants.length ≤ c.id :=
      Nat.le_trans safe.fresh (parameters c member).1
    -- The function is declared before its body is read, which may call it.
    have declared := safe.declare parameters (Nat.le_trans safe.fresh id) free
    obtain ⟨creates, uses⟩ := uses_of_parse (declared.grammar ▸ accepted)
      (declared.bodyScope_keepsTo parameters) parses
      fun _ _ fresh _ _ => Nat.le_trans declared.fresh fresh
    have created := declared.withCreated rfl declared.fresh creates
    exact { created with store := created.store.all.withBody (uses e body) }
  | deleteFunction known =>
    exact { safe with
      functions := fun key f found => safe.functions key f (Table.get?_erase_eq_some.1 found).2
      builtins := fun b => Table.get?_erase_eq_some.2
        ⟨fun same => (by rw [same, safe.builtins b] at known; cases known), safe.builtins b⟩ }
  | deleteVariable known isVariable =>
    exact { safe with
      names := fun name d found => safe.names name d (Table.get?_erase_eq_some.1 found).2
      cells := fun entry among => Table.get?_erase_eq_some.2
        ⟨fun same => by
          rw [same, safe.cells entry among] at known
          cases known
          exact absurd (kind_of_constants entry among) (by rw [isVariable]; decide),
        safe.cells entry among⟩ }

/-! ## Lines -/

omit accepted in
theorem evaluate (safe : Protected g s v) {budget : Nat} {e : Expr} (uses : e.Uses harmless)
    {result : Except EvalError Value} (evaluates : s.evaluate (e.eval budget) = some (result, s')) :
    Protected g s' v := by
  obtain ⟨⟨_, store⟩, runs, same⟩ := Option.map_eq_some_iff.1 evaluates
  cases same
  obtain ⟨after, same⟩ := harmless_spares.eval uses safe.store runs
  exact { safe with
    store := after
    definitions := fun entry among other =>
      (same.definition (id_lt_of_constants entry among)).trans (safe.definitions entry among other)
    latest := (same.definition (by decide : ansCell.id < constants.length)).trans safe.latest }

omit accepted in
theorem remember (safe : Protected g s v) (w : Value) :
    Protected g (s.remember w) (Reply.latest v (.ok (.value w))) := by
  cases w with
  | none => exact safe
  | some a =>
    exact { safe with
      store := safe.store.define True.intro
      definitions := fun entry among other => by
        refine Eq.trans ?_ (safe.definitions entry among other)
        exact (Store.definition_define ..).trans (if_neg (id_ne_of_constants entry among other))
      latest := (Store.definition_define ..).trans (if_pos rfl) }

end

end Protected

theorem History.protected_bindings {p : Grammar.Plan} {g : Grammar} (accepted : p.toGrammar = .ok g)
    {s : Session} {v : Value} (history : History g s v) : Protected g s v :=
  history.keeps
    { start := .start g
      adjust := fun settings safe => safe.adjust settings
      effect := fun safe effect => safe.effect accepted effect
      parse := fun safe parses => (safe.parse accepted parses).1
      evaluate := fun safe parses evaluates => by
        obtain ⟨safe, uses⟩ := safe.parse accepted parses
        exact safe.evaluate (uses _ rfl) evaluates
      remember := fun w safe => safe.remember w }

/-! ## Main result -/

/-- Protected bindings survive.  In every accepted grammar, whatever lines are run, which may be
    expressions or commands and may fail, whatever lines are only parsed and however the settings
    change in between, the names of the constants lead to their own cells, these stand for what they
    stood for at the start except for the latest value, which is that of the last line with a
    present value; every builtin function is found by its name and arity; and every name leads to a
    cell of this name and every name and arity to a function of these. -/
theorem protected_bindings_survive {p : Grammar.Plan} {g : Grammar} (accepted : p.toGrammar = .ok g)
    {s : Session} {v : Value} (history : History g s v) :
    (∀ entry ∈ constants, entry.1.kind = .constant ∧ s.names.get? entry.1.name = some entry.1 ∧
      s.store.definition entry.1 = if entry.1 = ansCell then .literal v else entry.2) ∧
    (∀ b : Builtin, s.functions.get? (b.name, b.arity) = some (.builtin b)) ∧
    (∀ name c, s.names.get? name = some c → c.name = name) ∧
    ∀ key f, s.functions.get? key = some f → f.key = key := by
  have safe := history.protected_bindings accepted
  refine ⟨fun entry among => ⟨kind_of_constants entry among, safe.cells entry among, ?_⟩,
    safe.builtins, fun name c known => (safe.names name c known).1,
    fun key f known => (safe.functions key f known).1⟩
  split
  · rename_i same
    rw [same]
    exact safe.latest
  · exact safe.definitions entry among ‹_›

/-- In the standard grammar `ans` keeps the value of `5` over an attempt to delete it. -/
theorem answer_survives_deletion :
    ∃ s, History Grammar.standard s (some (.integer 5)) ∧ s.names.get? "ans" = some ansCell ∧
      s.store.definition ansCell = .literal (some (.integer 5)) := by
  have answers : ((Session.start Grammar.standard).run 20 "5").any (fun first =>
      (Reply.latest none first.1).any (·.same (.integer 5)) &&
        (first.2.run 20 ":delete ans").any fun second => !second.1.isOk) := by
    decide +kernel
  obtain ⟨⟨reply, s⟩, evaluates, answers⟩ := (Option.any_eq_true _ _).1 answers
  rw [Bool.and_eq_true, Option.any_eq_true] at answers
  obtain ⟨⟨refusal, s'⟩, deletes, refuses⟩ := (Option.any_eq_true _ _).1 answers.2
  cases refusal with
  | ok _ => cases refuses
  | error cause =>
    have history := ((History.start {}).run evaluates).run deletes
    have survive := protected_bindings_survive Grammar.toGrammar_standard history
    obtain ⟨_, found, stands⟩ := survive.1 (ansCell, .void) (by simp [constants])
    obtain ⟨a, latest, same⟩ := answers.1
    have five : Reply.latest none reply = some (.integer 5) := by
      cases a with
      | integer n => rw [latest, of_decide_eq_true same]
      | fraction _ _ | float _ => cases same
    exact ⟨s', five ▸ history, found, (stands.trans (if_pos rfl)).trans (congrArg _ five)⟩

end Session

end Abacus
