import Abacus.Grammar.Standard
import Abacus.Proofs.Parse.Fallible
import Abacus.Proofs.Table
import Abacus.Session.Run

/-!
# What commands do

A command that answers has one of five effects on the session.  A command that is refused has
none: `define` takes back what it has declared, and a text without an expression creates no
variables.  So a line that fails before anything is evaluated leaves the session as it was.
-/

namespace Abacus.Session

open Fallible Parse

/-! ## Running a command -/

namespace Command

variable {α β : Type}

@[simp] theorem runOn_get_bind (f : Session → Command α) (s : Session) :
    (get >>= f).runOn s = (f s).runOn s := rfl

@[simp] theorem runOn_modify_bind (change : Session → Session) (f : PUnit → Command α) (s : Session) :
    (modify change >>= f : Command α).runOn s = (f ⟨⟩).runOn (change s) := rfl

theorem runOn_bind (m : Command α) (f : α → Command β) (s : Session) :
    (m >>= f).runOn s = match m.runOn s with
      | (.ok a, t) => (f a).runOn t
      | (.error cause, t) => (.error cause, t) := by
  change (ExceptT.bindCont f (m s).1 (m s).2) = _
  unfold runOn
  rcases m s with ⟨_ | _, _⟩ <;> rfl

theorem runOn_ofExcept (r : Except CommandError α) (s : Session) :
    (MonadExcept.ofExcept r : Command α).runOn s = (r, s) := by
  cases r <;> rfl

end Command

/-! ## Effects -/

/-- What a command that answers makes of a session. -/
inductive Effect (s : Session) : Session → Prop where
  | none : Effect s s
  /-- A printed expression may mention new variables. -/
  | print {line : String} {e : Expr} {s' : Session} : s.parse line = .ok (some e, s') → Effect s s'
  /-- A function that is no builtin one, with a body that may mention itself and new variables. -/
  | define {headerText : List Char} {u : UserFunction} {text : String} {parsed : Parsed} {e : Expr} :
      header s.fresh headerText = .ok u →
      (s.functions.get? (Function.user u).key).any Function.isBuiltin = false →
      Parse.parse ((s.declare u).bodyScope u) text = .ok parsed → parsed.expr = some e →
      Effect s { (s.declare u).withCreated parsed.created with store := s.store.withBody u e }
  | deleteFunction {key : String × Nat} {u : UserFunction} : s.functions.get? key = some (.user u) →
      Effect s { s with functions := s.functions.erase key }
  | deleteVariable {name : String} {c : Cell} : s.names.get? name = some c → c.kind = .variable →
      Effect s { s with names := s.names.erase name }

/-- How a command can end: refused without an effect, or with an answer and one of the effects. -/
inductive Ending (s : Session) : Except CommandError String × Session → Prop where
  | refused (cause : CommandError) : Ending s (.error cause, s)
  | answered (message : String) {s' : Session} : Effect s s' → Ending s (.ok message, s')

/-! ## Definitions -/

theorem id_of_header {fresh : Nat} {text : List Char} {u : UserFunction}
    (heads : header fresh text = .ok u) : u.id = fresh + u.parameters.length := by
  unfold header at heads
  split at heads
  · cases heads
  · dsimp only at heads
    split at heads
    · cases heads
    · obtain ⟨cells, _, same⟩ := bind_eq_ok.1 heads
      cases same
      rfl

/-- Taking back a declaration restores what it replaced. -/
theorem withdraw_declare {s : Session} {u : UserFunction}
    (id : u.id = s.fresh + u.parameters.length) :
    (s.declare u).withdraw u (s.functions.get? (Function.user u).key) = s := by
  have restored : ((s.declare u).withdraw u (s.functions.get? (Function.user u).key)).functions =
      s.functions := by
    unfold withdraw
    dsimp only
    split
    · exact Table.insert_insert ‹_› _
    · exact Table.erase_insert ‹_› _
  have numbers : u.id - u.parameters.length = s.fresh := by omega
  obtain ⟨grammar, settings, names, functions, store, fresh⟩ := s
  exact congrArg₂ (fun functions fresh => Session.mk grammar settings names functions store fresh)
    restored numbers

theorem runOn_defineBody (s : Session) (u : UserFunction) (known : Option Function) (text : String) :
    (defineBody u known text).runOn s = match Parse.parse (s.bodyScope u) text with
      | .error cause => (.error (.parse cause), s.withdraw u known)
      | .ok ⟨none, _⟩ => (.error (.malformed "define" "the body is empty"), s.withdraw u known)
      | .ok ⟨some e, created⟩ =>
        (.ok ⟨⟩, { s.withCreated created with store := s.store.withBody u e }) := by
  unfold defineBody
  rw [Command.runOn_get_bind]
  cases parses : Parse.parse (s.bodyScope u) text with
  | error cause => rfl
  | ok parsed =>
    obtain ⟨_ | e, created⟩ := parsed
    · cases created_of_blank parses rfl
      rfl
    · rfl

/-- A definition is refused without an effect, or it declares a function and gives it as its body
    what the text behind the equals sign is parsed to. -/
theorem define_cases (arguments : List Char) (s : Session) :
    (∃ cause, (define arguments).runOn s = (.error cause, s)) ∨
    ∃ message headerText text u e created,
      Text.splitOnce? (· = '=') arguments = some (headerText, text) ∧
      header s.fresh headerText = .ok u ∧
      (s.functions.get? (Function.user u).key).any Function.isBuiltin = false ∧
      Parse.parse ((s.declare u).bodyScope u) (String.ofList text) = .ok ⟨some e, created⟩ ∧
      (define arguments).runOn s = (.ok message,
        { (s.declare u).withCreated created with store := s.store.withBody u e }) := by
  unfold define
  split
  · exact .inl ⟨_, rfl⟩
  · rename_i headerText body splits
    rw [Command.runOn_get_bind, Command.runOn_bind, Command.runOn_ofExcept]
    cases heads : header s.fresh headerText with
    | error cause => exact .inl ⟨cause, rfl⟩
    | ok u =>
      dsimp only
      split
      · exact .inl ⟨_, rfl⟩
      · rename_i free
        rw [Command.runOn_modify_bind, Command.runOn_bind, runOn_defineBody,
          withdraw_declare (id_of_header heads)]
        cases parses : Parse.parse ((s.declare u).bodyScope u) (String.ofList body) with
        | error cause => exact .inl ⟨_, rfl⟩
        | ok parsed =>
          obtain ⟨_ | e, created⟩ := parsed
          · exact .inl ⟨_, rfl⟩
          · exact .inr ⟨_, headerText, body, u, e, created, splits, heads,
              Bool.eq_false_iff.2 free, parses, rfl⟩

theorem ending_of_define (arguments : List Char) (s : Session) :
    s.Ending ((define arguments).runOn s) := by
  rcases define_cases arguments s with ⟨cause, refuses⟩ | ⟨_, _, _, _, _, _, _, heads, free, parses,
    answers⟩
  · rw [refuses]
    exact .refused cause
  · rw [answers]
    exact .answered _ (.define heads free parses rfl)

/-! ## The other commands -/

theorem ending_of_delete (arguments : List Char) (s : Session) :
    s.Ending ((delete arguments).runOn s) := by
  unfold delete
  split
  · unfold deleteFunction
    split
    · exact .refused _
    · dsimp only
      rw [Command.runOn_get_bind]
      split
      · exact .answered _ (.deleteFunction ‹_›)
      · exact .refused _
  · unfold deleteVariable
    rw [Command.runOn_get_bind]
    split
    · exact .refused _
    · split
      · exact .refused _
      · exact .answered _ (.deleteVariable ‹_› ‹_›)

theorem ending_of_print (arguments : List Char) (s : Session) :
    s.Ending ((print arguments).runOn s) := by
  unfold print
  rw [Command.runOn_get_bind]
  cases parses : s.parse (String.ofList arguments) with
  | error cause => exact .refused _
  | ok result =>
    obtain ⟨_ | e, s'⟩ := result
    · obtain ⟨parsed, ends, same⟩ := bind_eq_ok.1 parses
      cases parsed with
      | mk expr created =>
        cases same
        cases created_of_blank ends rfl
        exact .refused _
    · exact .answered _ (.print parses)

theorem ending_of_runCommand (text : List Char) (s : Session) :
    s.Ending ((runCommand text).runOn s) := by
  unfold runCommand
  dsimp only
  split
  · exact ending_of_define _ s
  · exact ending_of_delete _ s
  · exact .answered _ .none
  · exact ending_of_print _ s
  · exact .answered _ .none
  · exact .refused _

/-! ## Main result -/

/-- A line that fails before anything is evaluated, be it an expression that does not parse or a
    command that is refused at any stage, leaves everything as it was: the names and the functions
    with what they stand for, the latest value, the counts of reads and calls, and the settings. -/
theorem refused_line_changes_nothing {s s' : Session} {budget : Nat} {line : String}
    {cause : LineError} (runs : s.run budget line = some (.error cause, s'))
    (refused : ∀ failure, cause ≠ .eval failure) : s' = s := by
  unfold run at runs
  split at runs
  · rename_i text _
    have ending := ending_of_runCommand text s
    split at runs
    · cases runs
    · rename_i answers
      rw [answers] at ending
      cases runs
      cases ending
      rfl
  · split at runs
    · rename_i e t _
      obtain ⟨⟨result, next⟩, _, runs⟩ := Option.bind_eq_some_iff.1 runs
      cases result with
      | ok v => cases runs
      | error failure =>
        cases runs
        exact absurd rfl (refused failure)
    · cases runs
    · cases runs
      rfl

/-- A definition that does not parse, although it replaces a function and mentions a new name. -/
theorem failed_redefinition_changes_nothing :
    ∃ reply s cause, (start Grammar.standard).run 8 ":define f(x) = x" = some (reply, s) ∧
      s.functions.contains ("f", 1) ∧
      s.run 8 ":define f(x) = x + zed @" = some (.error (.command (.parse cause)), s) := by
  have computed : ((start Grammar.standard).run 8 ":define f(x) = x").any fun first =>
      first.2.functions.contains ("f", 1) &&
        (first.2.run 8 ":define f(x) = x + zed @").any fun second =>
          match second.1 with
          | .error (.command (.parse _)) => true
          | _ => false := by
    decide +kernel
  obtain ⟨⟨reply, s⟩, defines, computed⟩ := (Option.any_eq_true _ _).1 computed
  obtain ⟨known, computed⟩ := Bool.and_eq_true_iff.1 computed
  obtain ⟨⟨refusal, s'⟩, runs, refused⟩ := (Option.any_eq_true _ _).1 computed
  dsimp only at refused
  split at refused
  · rename_i cause
    have unchanged : s' = s :=
      refused_line_changes_nothing runs fun _ impossible => by cases impossible
    rw [unchanged] at runs
    exact ⟨reply, s, cause, defines, known, runs⟩
  · cases refused

end Abacus.Session
