import Abacus.Proofs.Parse.Mentioned
import Abacus.Proofs.Session.Numbering

/-!
# What sessions learn from lines

In every session a line that parses adds the variables that it mentions and that were unknown.  The
names of a session lead to cells of these names that are older than the ones to come, and nothing
has been defined for those, so each new variable is void.
-/

namespace Abacus.Session

open Parse

variable {p : Grammar.Plan} {g : Grammar} {s : Session} {v : Value}

theorem Protected.keyed {owner : Nat → UserFunction} (safe : Protected g s v)
    (numbered : Numbered g owner s) : s.scope.Keyed where
  parameters _ _ impossible := by cases impossible
  names name c known := ⟨(safe.names name c known).1, numbered.names name c known⟩

/-- A line of a session continues from nothing or from the constant that its name leads to. -/
theorem Protected.continues (safe : Protected g s v) :
    s.scope.leading = none ∨ s.scope.parameters = ∅ ∧
      ∃ c, s.scope.leading = some c ∧ s.scope.names.get? c.name = some c := by
  cases leads : s.scope.leading with
  | none => exact .inl rfl
  | some c =>
    cases eq_ansCell_of_leads leads
    exact .inr ⟨rfl, ansCell, rfl, safe.cells (ansCell, .void) (by simp [constants])⟩

theorem History.learns (accepted : p.toGrammar = .ok g) (history : History g s v) {line : String}
    {parsed : Parsed} (parses : Parse.parse s.scope line = .ok parsed) :
    s.scope.Learns s.store line parsed := by
  have safe := history.protected_bindings accepted
  obtain ⟨owner, numbered⟩ := history.numbered accepted
  exact learns_of_parse (safe.grammar ▸ accepted) (safe.keyed numbered) safe.continues
    numbered.unused parses

/-- The body of a function is read where the names of the parameters lead to new cells. -/
theorem Protected.keyed_bodyScope {owner : Nat → UserFunction} (safe : Protected g s v)
    (numbered : Numbered g owner s) {headerText : List Char} {u : UserFunction}
    (heads : header s.fresh headerText = .ok u) : ((s.declare u).bodyScope u).Keyed where
  parameters := Table.forall_ofList_map fun c among =>
    ⟨rfl, Nat.lt_succ_of_lt ((fresh_of_header heads).1 c among).2⟩
  names name c known :=
    ⟨(safe.names name c known).1, Nat.lt_of_lt_of_le (numbered.names name c known)
      (Nat.le_succ_of_le (fresh_of_header heads).2)⟩

theorem History.learns_body (accepted : p.toGrammar = .ok g) (history : History g s v)
    {headerText : List Char} {u : UserFunction} (heads : header s.fresh headerText = .ok u)
    {text : String} {parsed : Parsed}
    (parses : Parse.parse ((s.declare u).bodyScope u) text = .ok parsed) :
    ((s.declare u).bodyScope u).Learns s.store text parsed := by
  have safe := history.protected_bindings accepted
  obtain ⟨owner, numbered⟩ := history.numbered accepted
  have unused (id : Nat) (later : u.id + 1 ≤ id) : s.store.definitions.get? id = none :=
    numbered.unused id ((fresh_of_header heads).2.trans (Nat.le_of_succ_le later))
  have accepted : p.toGrammar = .ok ((s.declare u).bodyScope u).grammar :=
    accepted.trans (congrArg _ safe.grammar.symm)
  exact learns_of_parse accepted (safe.keyed_bodyScope numbered heads) (.inl rfl) unused parses

/-! ## Main result -/

/-- In every accepted grammar a line that parses creates the variables that its expression mentions
    and that were unknown before, and nothing else; parsed again it creates nothing.  The line may
    mention parameters or continue from a cell; known names must lead to cells of these names that
    have been numbered, and nothing may be defined for the numbers to come.  This is so for the lines
    of every session, whatever lines have been run and parsed in it and however its settings have
    changed, and for the bodies of the functions that are defined in it. -/
theorem parse_creates_mentioned :
    (∀ (p : Grammar.Plan) (scope : Scope), p.toGrammar = .ok scope.grammar → scope.Keyed →
      (scope.leading = none ∨ scope.parameters = ∅ ∧
        ∃ c, scope.leading = some c ∧ scope.names.get? c.name = some c) →
      ∀ store : Store, (∀ id, scope.fresh ≤ id → store.definitions.get? id = none) →
      ∀ line parsed, Parse.parse scope line = .ok parsed → scope.Learns store line parsed) ∧
    ∀ (p : Grammar.Plan) (g : Grammar) (s : Session) (v : Value), p.toGrammar = .ok g →
      History g s v →
      (∀ line parsed, Parse.parse s.scope line = .ok parsed →
        s.scope.Learns s.store line parsed) ∧
      ∀ headerText u, header s.fresh headerText = .ok u → ∀ text parsed,
        Parse.parse ((s.declare u).bodyScope u) text = .ok parsed →
        ((s.declare u).bodyScope u).Learns s.store text parsed := by
  constructor
  · intro p scope accepted keyed continues store unused line parsed parses
    exact learns_of_parse accepted keyed continues unused parses
  · intro p g s v accepted history
    exact ⟨fun line parsed parses => history.learns accepted parses,
      fun headerText u heads text parsed parses => history.learns_body accepted heads parses⟩

/-- A line that goes on from `ans` mentions a new name twice, once in the argument of a call, and a
    body mentions its parameter, a known name and a new one. -/
theorem continued_line_learns :
    let ans : Cell := ⟨0, "ans", .constant⟩
    let scope : Scope := ⟨Grammar.standard, .ofList [(("abs", 1), .builtin .abs)],
      .ofList [("ans", ans), ("x", ⟨1, "x", .variable⟩)], ∅, some ans, 2⟩
    (∃ parsed, Parse.parse scope "+ y*(abs(y) - x)" = .ok parsed ∧
      scope.Learns {} "+ y*(abs(y) - x)" parsed) ∧
    ∃ s v, History Grammar.standard s v ∧
      (∃ parsed, Parse.parse s.scope "+ y*(f(y) - x)" = .ok parsed ∧
        s.scope.Learns s.store "+ y*(f(y) - x)" parsed) ∧
      ∃ u parsed, header s.fresh "g(b)".toList = .ok u ∧
        Parse.parse ((s.declare u).bodyScope u) "b*x + z" = .ok parsed ∧
        ((s.declare u).bodyScope u).Learns s.store "b*x + z" parsed := by
  intro ans scope
  obtain ⟨scopes, sessions⟩ := parse_creates_mentioned
  constructor
  · have keyed : scope.Keyed := by
      refine ⟨fun _ _ impossible => (by cases impossible), Table.forall_ofList ?_⟩
      exact List.forall_mem_cons.2 ⟨⟨rfl, by decide⟩, List.forall_mem_singleton.2 ⟨rfl, by decide⟩⟩
    have reads : (Parse.parse scope "+ y*(abs(y) - x)").toOption.isSome := by decide +kernel
    obtain ⟨parsed, result⟩ := Fallible.exists_ok reads
    exact ⟨parsed, result, scopes _ scope Grammar.toGrammar_standard keyed
      (.inr ⟨rfl, ans, rfl, rfl⟩) {} (fun _ _ => rfl) _ _ result⟩
  · -- The body of `f` has made `x` known.
    have computed : ((start Grammar.standard).run 8 ":define f(a) = a*x").any fun first =>
        (Parse.parse first.2.scope "+ y*(f(y) - x)").toOption.isSome &&
          (header first.2.fresh "g(b)".toList).toOption.any fun u =>
            (Parse.parse ((first.2.declare u).bodyScope u) "b*x + z").toOption.isSome := by
      decide +kernel
    obtain ⟨⟨reply, s⟩, defines, reads⟩ := (Option.any_eq_true _ _).1 computed
    obtain ⟨line, heads⟩ := Bool.and_eq_true_iff.1 reads
    obtain ⟨parsed, result⟩ := Fallible.exists_ok line
    obtain ⟨u, heads, body⟩ := Fallible.exists_of_any heads
    obtain ⟨parsedBody, resultBody⟩ := Fallible.exists_ok body
    have history := (History.start {}).run defines
    obtain ⟨lines, bodies⟩ := sessions _ _ s _ Grammar.toGrammar_standard history
    exact ⟨s, _, history, ⟨parsed, result, lines _ _ result⟩, u, parsedBody, heads, resultBody,
      bodies _ u heads _ _ resultBody⟩

end Abacus.Session
