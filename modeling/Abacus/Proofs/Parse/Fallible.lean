import Abacus.Parse.Parser

/-!
# Computations that may fail

How a sequence of computations ends in terms of its parts, for plain results and
for parses, which also carry the variables created so far.
-/

namespace Abacus

namespace Fallible

variable {ε α β : Type}

theorem bind_eq_ok {x : Except ε α} {f : α → Except ε β} {b : β} :
    (x >>= f) = .ok b ↔ ∃ a, x = .ok a ∧ f a = .ok b := by
  cases x with
  | error cause => simp [bind, Except.bind]
  | ok a => simp [bind, Except.bind]

theorem bind_eq_error {x : Except ε α} {f : α → Except ε β} {cause : ε} :
    (x >>= f) = .error cause ↔ x = .error cause ∨ ∃ a, x = .ok a ∧ f a = .error cause := by
  cases x with
  | error other => simp [bind, Except.bind]
  | ok a => simp [bind, Except.bind]

theorem exists_ok {x : Except ε α} (ends : x.toOption.isSome) : ∃ a, x = .ok a := by
  cases x with
  | error cause => cases ends
  | ok a => exact ⟨a, rfl⟩

theorem exists_of_any {x : Except ε α} {f : α → Bool} (holds : x.toOption.any f) :
    ∃ a, x = .ok a ∧ f a := by
  cases x with
  | error cause => cases holds
  | ok a => exact ⟨a, rfl, holds⟩

theorem map_eq_error {x : Except ε α} {f : α → β} {cause : ε} :
    x.map f = .error cause ↔ x = .error cause := by
  cases x <;> simp [Except.map]

@[simp] theorem mapError_ok {δ : Type} (f : ε → δ) (a : α) :
    (Except.ok a : Except ε α).mapError f = .ok a := rfl

@[simp] theorem mapError_error {δ : Type} (f : ε → δ) (cause : ε) :
    (Except.error cause : Except ε α).mapError f = .error (f cause) := rfl

theorem mapError_eq_iff {δ : Type} {f : ε → δ} {x y : Except ε α} :
    x.mapError f = y.mapError f ↔ (∃ a, x = .ok a ∧ y = .ok a) ∨
      ∃ cause cause', x = .error cause ∧ y = .error cause' ∧ f cause = f cause' := by
  cases x with
  | error cause => cases y <;> simp
  | ok a => cases y <;> simp [eq_comm]

theorem mapM_eq_ok_cons {f : α → Except ε β} {a : α} {as : List α} {results : List β} :
    (a :: as).mapM f = .ok results ↔
      ∃ b bs, f a = .ok b ∧ as.mapM f = .ok bs ∧ results = b :: bs := by
  rw [List.mapM_cons, bind_eq_ok]
  constructor
  · rintro ⟨b, first, ends⟩
    obtain ⟨bs, rest, ends⟩ := bind_eq_ok.1 ends
    cases ends
    exact ⟨b, bs, first, rest, rfl⟩
  · rintro ⟨b, bs, first, rest, rfl⟩
    exact ⟨b, first, bind_eq_ok.2 ⟨bs, rest, rfl⟩⟩

theorem foldlM_keeps {P : β → Prop} {f : β → α → Except ε β} {as : List α}
    (step : ∀ a ∈ as, ∀ b c, P b → f b a = .ok c → P c) {start result : β} (before : P start)
    (ends : as.foldlM f start = .ok result) : P result := by
  induction as generalizing start with
  | nil =>
    cases ends
    exact before
  | cons a rest inductionHypothesis =>
    rw [List.foldlM_cons] at ends
    obtain ⟨b, first, ends⟩ := bind_eq_ok.1 ends
    rw [List.forall_mem_cons] at step
    exact inductionHypothesis step.2 (step.1 start b before first) ends

end Fallible

namespace Parse

open Fallible

/-- The tokenizers of a grammar can always be configured: their brackets pair up. -/
theorem exists_cuts (g : Grammar) : ∃ cuts, Cuts.ofGrammar g = .ok cuts := ⟨_, rfl⟩

theorem run_bind_eq_ok {α β : Type} {m : Parsing α} {f : α → Parsing β}
    {before after : Table String Cell} {b : β} :
    (m >>= f).run before = .ok (b, after) ↔
      ∃ a between, m.run before = .ok (a, between) ∧ (f a).run between = .ok (b, after) := by
  rw [StateT.run_bind, bind_eq_ok]
  exact Prod.exists

theorem run_bind_congr {α β : Type} {m : Parsing α} {f f' : α → Parsing β}
    {created : Table String Cell}
    (same : ∀ a t, m.run created = .ok (a, t) → (f a).run t = (f' a).run t) :
    (m >>= f).run created = (m >>= f').run created := by
  rw [StateT.run_bind, StateT.run_bind]
  cases ends : m.run created with
  | error cause => rfl
  | ok result => exact same result.1 result.2 ends

theorem run_liftM_eq_ok {α : Type} {x : Except ParseError α} {a : α}
    {before after : Table String Cell} :
    (liftM x : Parsing α).run before = .ok (a, after) ↔ x = .ok a ∧ after = before := by
  cases x with
  | error cause => exact ⟨nofun, nofun⟩
  | ok b =>
    constructor
    · intro ends
      cases ends
      exact ⟨rfl, rfl⟩
    · rintro ⟨same, rfl⟩
      cases same
      rfl

theorem liftM_bind_liftM {α β γ : Type} (x : Except ParseError α) (f : α → Except ParseError β)
    (k : β → Parsing γ) :
    ((liftM x : Parsing α) >>= fun a => (liftM (f a) : Parsing β) >>= k) =
      (liftM (x >>= f) : Parsing β) >>= k := by
  cases x <;> rfl

def readItems (scope : Scope) (leading : Option Expr) (items : List Item) :
    Parsing (Option Expr) := do
  let line ← (Line.ofList items).decide scope.grammar
  return some (← (line.withLeading leading).toExpr scope.grammar)

def readEntries (scope : Scope) (cuts : Cuts) (nested : NestedParser) (leading : Option Expr)
    (entries : List (List Char × Option Expr)) : Parsing (Option Expr) := do
  readItems scope leading (← entries.mapM (tokenItems scope cuts nested)).flatten

theorem parseWith_eq (scope : Scope) (cuts : Cuts) (nested : NestedParser) (wholeLine : Bool)
    (text : List Char) :
    parseWith scope cuts nested wholeLine text = (do
      let entries ← (cuts.atBlanks.tokens text).mapM fun token => do
        return (token, ← operand? scope nested token)
      match entries with
      | [] => return none
      | [(_, some e)] => return some e
      | entries => readEntries scope cuts nested (scope.leadingOf wholeLine text) entries) := by
  unfold parseWith
  refine bind_congr fun entries => ?_
  match entries with
  | [] => rfl
  | [(_, some e)] => rfl
  | [(_, none)] | (_, some _) :: _ :: _ | (_, none) :: _ :: _ => rfl

theorem parse_eq {scope : Scope} {cuts : Cuts} (made : Cuts.ofGrammar scope.grammar = .ok cuts)
    (line : String) :
    parse scope line = if balanced line.toList then
      ((parseToDepth scope cuts (line.toList.count '(' + 1) true line.toList).run ∅).map
        fun result => ⟨result.1, result.2⟩
      else .error (.unbalanced line) := by
  unfold parse
  dsimp only
  cases balanced line.toList with
  | false => rfl
  | true =>
    rw [Bool.not_true, if_neg Bool.false_ne_true, if_pos rfl, made]
    rfl

theorem parse_eq_ok {scope : Scope} {line : String} {parsed : Parsed} :
    parse scope line = .ok parsed ↔ balanced line.toList ∧
      ∃ cuts, Cuts.ofGrammar scope.grammar = .ok cuts ∧
        (parseToDepth scope cuts (line.toList.count '(' + 1) true line.toList).run ∅ =
          .ok (parsed.expr, parsed.created) := by
  unfold parse
  dsimp only
  cases balanced line.toList with
  | false => exact ⟨nofun, nofun⟩
  | true =>
    rw [Bool.not_true, if_neg Bool.false_ne_true, bind_eq_ok]
    refine ⟨fun ⟨cuts, made, parses⟩ => ⟨rfl, cuts, made, ?_⟩,
      fun ⟨_, cuts, made, parses⟩ => ⟨cuts, made, bind_eq_ok.2 ⟨_, parses, rfl⟩⟩⟩
    obtain ⟨_, reads, same⟩ := bind_eq_ok.1 parses
    cases same
    exact reads

theorem created_of_blank {scope : Scope} {line : String} {parsed : Parsed}
    (parses : parse scope line = .ok parsed) (blank : parsed.expr = none) : parsed.created = ∅ := by
  unfold parse at parses
  dsimp only at parses
  split at parses
  · cases parses
  · obtain ⟨cuts, made, parses⟩ := bind_eq_ok.1 parses
    obtain ⟨⟨e, created⟩, reads, same⟩ := bind_eq_ok.1 parses
    cases same
    cases blank
    obtain ⟨entries, between, tried, reads⟩ := run_bind_eq_ok.1 reads
    cases tokens : cuts.atBlanks.tokens line.toList with
    | nil =>
      rw [tokens] at tried
      cases tried
      cases reads
      rfl
    | cons token rest =>
      rw [tokens, List.mapM_cons] at tried
      obtain ⟨entry, _, _, tried⟩ := run_bind_eq_ok.1 tried
      obtain ⟨others, _, _, tried⟩ := run_bind_eq_ok.1 tried
      cases tried
      dsimp only at reads
      split at reads
      · cases ‹entry :: others = []›
      · cases reads
      · obtain ⟨_, _, _, reads⟩ := run_bind_eq_ok.1 reads
        obtain ⟨_, _, _, reads⟩ := run_bind_eq_ok.1 reads
        obtain ⟨_, _, _, reads⟩ := run_bind_eq_ok.1 reads
        cases reads

end Parse

end Abacus
