import Abacus.Proofs.Parse.Accounting
import Abacus.Proofs.Parse.Mention
import Abacus.Store
import Mathlib.Data.List.Nodup

/-!
# Variables that a line mentions

A parse creates the variables that the expression mentions and that were unknown, and no others.
Once these are known, the same parse creates nothing.
-/

namespace Abacus.Parse

open Fallible Parsing

/-! ## Parsing again -/

def Scope.knowing (scope : Scope) (created : Table String Cell) (fresh : Nat) : Scope :=
  { scope with names := scope.names.insertAll created, fresh }

/-- Whether a parse only adds variables, and `m'` has the same result without adding any, where
    `final` are all the variables that are created in the end. -/
def Parsing.Recalls {α : Type} (final : Table String Cell) (m m' : Parsing α) : Prop :=
  ∀ created a created', m.run created = .ok (a, created') →
    created.Within created' ∧ (created'.Within final → m'.run ∅ = .ok (a, ∅))

namespace Parsing

variable {α β γ : Type} {final : Table String Cell}

theorem Recalls.result (a : α) : Recalls final (pure a) (pure a) := by
  intro created b created' ends
  cases ends
  exact ⟨.refl _, fun _ => rfl⟩

theorem Recalls.failure (cause : ParseError) (m' : Parsing α) :
    Recalls final (throw cause) m' :=
  fun _ _ _ impossible => by cases impossible

theorem Recalls.bind {m m' : Parsing α} {f f' : α → Parsing β} (first : Recalls final m m')
    (second : ∀ a, Recalls final (f a) (f' a)) : Recalls final (m >>= f) (m' >>= f') := by
  intro created b created' ends
  obtain ⟨a, between, left, right⟩ := run_bind_eq_ok.1 ends
  obtain ⟨grows, recalls⟩ := first created a between left
  obtain ⟨grows', recalls'⟩ := second a between b created' right
  exact ⟨grows.trans grows', fun within =>
    run_bind_eq_ok.2 ⟨a, ∅, recalls (grows'.trans within), recalls' within⟩⟩

theorem Recalls.mapM {f f' : γ → Parsing β} (each : ∀ c, Recalls final (f c) (f' c))
    (cs : List γ) : Recalls final (cs.mapM f) (cs.mapM f') := by
  induction cs with
  | nil => exact .result []
  | cons c cs inductionHypothesis =>
    rw [List.mapM_cons, List.mapM_cons]
    exact .bind (each c) fun b => .bind inductionHypothesis fun bs => .result (b :: bs)

theorem Recalls.ofExcept (x : Except ParseError α) : Recalls final (liftM x) (liftM x) := by
  cases x with
  | error cause => exact .failure cause _
  | ok a => exact .result a

end Parsing

section

variable {scope : Scope} {final : Table String Cell} {fresh : Nat}

theorem lookup_knowing (creates : scope.Creates final) (fresh : Nat) (name : String) :
    (scope.knowing final fresh).lookup ∅ name = scope.lookup final name := by
  change (scope.parameters.get? name).or (((scope.names.insertAll final).get? name).or none) = _
  rw [Table.get?_insertAll _ _ creates.distinct, Option.or_none, Scope.lookup]
  cases new : final.get? name with
  | none => rw [Option.none_or, Option.or_none]
  | some c =>
    rw [(creates.unknown name c new).2]
    rfl

theorem cell_recalls (creates : scope.Creates final) (name : String) :
    Recalls final (scope.cell name) ((scope.knowing final fresh).cell name) := by
  intro created c created' ends
  obtain ⟨grows, finds⟩ : created.Within created' ∧ scope.lookup created' name = some c := by
    rcases cell_cases ends with ⟨found, rfl⟩ | ⟨found, _, rfl⟩
    · exact ⟨.refl _, found⟩
    · obtain ⟨unknown, absent⟩ := Scope.lookup_eq_none.1 found
      exact ⟨Table.Within.insert absent _, Scope.lookup_insert unknown _⟩
  refine ⟨grows, fun within => ?_⟩
  have known := (lookup_knowing creates fresh name).trans
    (Scope.lookup_within within finds)
  unfold Scope.cell
  refine run_bind_eq_ok.2 ⟨∅, ∅, rfl, ?_⟩
  rw [Scope.lookup] at known
  rw [known]
  rfl

variable {nested nested' : NestedParser}
  (inside : ∀ text, Recalls final (nested text) (nested' text))

include inside

theorem call?_recalls (text : List Char) :
    Recalls final (call? scope nested text) (call? (scope.knowing final fresh) nested' text) := by
  unfold call?
  dsimp only [Scope.knowing]
  split
  · exact .result none
  · split
    · exact .result none
    · split
      · exact .result none
      · exact .bind (.mapM (fun text => .bind (inside text) fun _ => .result _) _) fun _ =>
          .result _

variable (creates : scope.Creates final)

include creates

theorem operand?_recalls (text : List Char) :
    Recalls final (operand? scope nested text)
      (operand? (scope.knowing final fresh) nested' text) := by
  unfold operand?
  split
  · exact .result _
  · split
    · exact .bind (inside _) fun _ => .result _
    · change Recalls final _ (if Lexeme.isName text && !scope.grammar.isSymbol (String.ofList text)
        then _ else _)
      split
      · exact .bind (cell_recalls creates _) fun _ => .result _
      · exact call?_recalls inside text

theorem fragmentItem_recalls (fragment : List Char) :
    Recalls final (fragmentItem scope nested fragment)
      (fragmentItem (scope.knowing final fresh) nested' fragment) := by
  refine .bind (operand?_recalls inside creates fragment) fun e => ?_
  cases e with
  | none => exact .failure _ _
  | some e => exact .result _

theorem segmentItems_recalls (cuts : Cuts) (segment : List Char) :
    Recalls final (segmentItems scope cuts nested segment)
      (segmentItems (scope.knowing final fresh) cuts nested' segment) := by
  unfold segmentItems
  dsimp only [Scope.knowing]
  split
  · exact .result _
  · refine .bind (operand?_recalls inside creates segment) fun e => ?_
    cases e with
    | some e => exact .result _
    | none => exact .mapM (fragmentItem_recalls inside creates) _

theorem tokenItems_recalls (cuts : Cuts) (token : List Char × Option Expr) :
    Recalls final (tokenItems scope cuts nested token)
      (tokenItems (scope.knowing final fresh) cuts nested' token) := by
  obtain ⟨text, e⟩ := token
  cases e with
  | some e => exact .result _
  | none => exact .bind (.mapM (segmentItems_recalls inside creates cuts) _) fun _ => .result _

theorem parseWith_recalls (cuts : Cuts) (wholeLine : Bool) (text : List Char) :
    Recalls final (parseWith scope cuts nested wholeLine text)
      (parseWith (scope.knowing final fresh) cuts nested' wholeLine text) := by
  refine .bind (.mapM (fun token => .bind (operand?_recalls inside creates token) fun _ =>
    .result _) _) fun entries => ?_
  split
  · exact .result _
  · exact .result _
  · exact .bind (.mapM (tokenItems_recalls inside creates cuts) _) fun items =>
      .bind (.ofExcept _) fun l => .bind (.ofExcept _) fun e => .result _

omit inside in
theorem parseToDepth_recalls (cuts : Cuts) (depth : Nat) (wholeLine : Bool) (text : List Char) :
    Recalls final (parseToDepth scope cuts depth wholeLine text)
      (parseToDepth (scope.knowing final fresh) cuts depth wholeLine text) := by
  induction depth generalizing wholeLine text with
  | zero => exact .result _
  | succ depth inductionHypothesis =>
    exact parseWith_recalls (inductionHypothesis false) creates cuts wholeLine text

end

/-! ## What a line adds -/

/-- Scopes in which every name leads to a cell of that name that is older than all new ones. -/
structure Scope.Keyed (scope : Scope) : Prop where
  parameters : ∀ name c, scope.parameters.get? name = some c → c.name = name ∧ c.id < scope.fresh
  names : ∀ name c, scope.names.get? name = some c → c.name = name ∧ c.id < scope.fresh

/-- What parsing a line adds to the names that a scope knows. -/
structure Scope.Learns (scope : Scope) (store : Store) (line : String) (parsed : Parsed) :
    Prop where
  /-- A known name leads where it led before. -/
  kept : ∀ name c, scope.names.get? name = some c →
    (scope.names.insertAll parsed.created).get? name = some c
  /-- A name is new if the expression mentions it and it led nowhere before. -/
  gained : ∀ name, (scope.names.get? name = none ∧
      ((scope.names.insertAll parsed.created).get? name).isSome) ↔
    scope.parameters.get? name = none ∧ scope.names.get? name = none ∧
      ∃ e ∈ parsed.expr, ∃ c, Expr.cell c ∈ e.subexpressions ∧ c.name = name
  /-- A new name leads to a variable of that name, and no definition has been given to it. -/
  void : ∀ name c, parsed.created.get? name = some c →
    c.name = name ∧ c.kind = .variable ∧ store.definition c = .void
  /-- It is another variable than the ones that were known, and has a number that counts up. -/
  fresh : ∀ name c, parsed.created.get? name = some c →
    scope.fresh ≤ c.id ∧ c.id < scope.fresh + parsed.created.size ∧
      ∀ known d, scope.names.get? known = some d ∨ scope.parameters.get? known = some d →
        d.id < c.id
  /-- Different new names lead to different variables. -/
  distinct : ∀ name name' c c', parsed.created.get? name = some c →
    parsed.created.get? name' = some c' → c.id = c'.id → name = name'
  /-- Every cell in the expression is the one that its name leads to, the parameters first. -/
  cells : ∀ e ∈ parsed.expr, ∀ c, Expr.cell c ∈ e.subexpressions →
    (scope.parameters.get? c.name).or ((scope.names.insertAll parsed.created).get? c.name) = some c
  /-- Parsed again the line gives the same expression and creates nothing. -/
  again : ∀ fresh, parse (scope.knowing parsed.created fresh) line = .ok ⟨parsed.expr, ∅⟩

section

variable {scope : Scope} {created : Table String Cell}

theorem Scope.Keyed.name_of_lookup (keyed : scope.Keyed) (creates : scope.Creates created)
    {name : String} {c : Cell} (found : scope.lookup created name = some c) : c.name = name := by
  rcases Option.or_eq_some_iff.1 found with parameter | ⟨_, found⟩
  · exact (keyed.parameters name c parameter).1
  · rcases Option.or_eq_some_iff.1 found with known | ⟨_, new⟩
    · exact (keyed.names name c known).1
    · exact creates.named name c new

theorem cells_composed (keyed : scope.Keyed) (creates : scope.Creates created)
    (continues : ∀ c, scope.leading = some c → scope.lookup created c.name = some c) :
    scope.Composes created fun e =>
      ∀ c, Expr.cell c ∈ e.subexpressions → scope.lookup created c.name = some c where
  literal v c member := by cases List.mem_singleton.1 member
  cell {name d} found c member := by
    cases List.mem_singleton.1 member
    rwa [keyed.name_of_lookup creates found]
  leading {d} leads c member := by
    cases List.mem_singleton.1 member
    exact continues d leads
  parens {e} inner c member := by
    rcases List.mem_cons.1 member with impossible | member
    · cases impossible
    · exact inner c member
  call {key f es} _ arguments c member := by
    rcases List.mem_cons.1 member with impossible | member
    · cases impossible
    · obtain ⟨e, among, inside⟩ := Expr.mem_subexpressionsAll.1 member
      exact arguments e among c inside
  binary o {l r} left right c member := by
    rw [Expr.subexpressions, List.mem_cons, List.mem_append] at member
    rcases member with impossible | member | member
    · cases impossible
    · exact left c member
    · exact right c member
  unary m {e} operand c member := by
    rcases List.mem_cons.1 member with impossible | member
    · cases impossible
    · exact operand c member

theorem Scope.Recorded.distinct {kept : List Expr} (recorded : scope.Recorded kept created)
    {name name' : String} {c c' : Cell} (found : created.get? name = some c)
    (found' : created.get? name' = some c') (same : c.id = c'.id) : name = name' := by
  have ids : (created.entries.map fun entry => entry.2.id).Nodup := by
    have numbered := recorded.numbered
    rw [Table.values, List.map_map] at numbered
    exact numbered ▸ List.nodup_range'
  exact congrArg Prod.fst (List.inj_on_of_nodup_map ids (Table.mem_entries found)
    (Table.mem_entries found') same)

end

theorem learns_of_parse {p : Grammar.Plan} {scope : Scope}
    (accepted : p.toGrammar = .ok scope.grammar) (keyed : scope.Keyed)
    (continues : scope.leading = none ∨ scope.parameters = ∅ ∧
      ∃ c, scope.leading = some c ∧ scope.names.get? c.name = some c)
    {store : Store} (unused : ∀ id, scope.fresh ≤ id → store.definitions.get? id = none)
    {line : String} {parsed : Parsed} (parses : parse scope line = .ok parsed) :
    scope.Learns store line parsed := by
  have leads (created : Table String Cell) (c : Cell) (leads : scope.leading = some c) :
      scope.lookup created c.name = some c := by
    rcases continues with none | ⟨parameters, d, some, known⟩
    · rw [none] at leads
      cases leads
    · rw [some] at leads
      cases leads
      rw [Scope.lookup, parameters, known]
      rfl
  obtain ⟨creates, cells⟩ := composed_of_parse accepted parses fun creates =>
    cells_composed keyed creates (leads parsed.created)
  obtain ⟨closed, cuts, made, reads⟩ := parse_eq_ok.1 parses
  have recorded := recorded_of_parse accepted parses
  have grown (name : String) : (scope.names.insertAll parsed.created).get? name =
      (parsed.created.get? name).or (scope.names.get? name) :=
    Table.get?_insertAll _ _ creates.distinct name
  constructor
  case kept =>
    intro name c known
    rw [grown]
    cases new : parsed.created.get? name with
    | none => exact known
    | some d => cases known.symm.trans (creates.unknown name d new).2
  case gained =>
    intro name
    rw [grown]
    constructor
    · -- What is created has been kept as a part of the expression.
      rintro ⟨unknown, new⟩
      rw [unknown, Option.or_none] at new
      obtain ⟨c, new⟩ := Option.isSome_iff_exists.1 new
      obtain ⟨e, same, inside⟩ := List.mem_flatMap.1 (recorded.mentioned name c new)
      exact ⟨(creates.unknown name c new).1, unknown, e, Option.mem_toList.1 same, c, inside,
        creates.named name c new⟩
    · -- A cell in the expression is found by its name, and nothing else is left to find it in.
      rintro ⟨parameter, unknown, e, same, c, inside, rfl⟩
      have found := cells e same c inside
      rw [Scope.lookup, parameter, unknown] at found
      exact ⟨unknown, Option.isSome_iff_exists.2 ⟨c, by rw [unknown, Option.or_none]; exact found⟩⟩
  case void =>
    intro name c new
    obtain ⟨isVariable, fresh⟩ := creates.new name c new
    refine ⟨creates.named name c new, isVariable, ?_⟩
    rw [Store.definition, unused c.id fresh]
    rfl
  case fresh =>
    intro name c new
    have fresh := (creates.new name c new).2
    refine ⟨fresh, recorded.id_lt new, fun known d found => ?_⟩
    have older : d.id < scope.fresh := found.elim (fun found => (keyed.names known d found).2)
      fun found => (keyed.parameters known d found).2
    exact Nat.lt_of_lt_of_le older fresh
  case distinct =>
    exact fun name name' c c' => recorded.distinct
  case cells =>
    intro e same c inside
    have found := (lookup_knowing creates 0 c.name).trans (cells e same c inside)
    rwa [Scope.lookup, Table.get?_empty, Option.or_none] at found
  case again =>
    intro fresh
    refine parse_eq_ok.2 ⟨closed, cuts, made, ?_⟩
    exact (parseToDepth_recalls creates cuts _ true line.toList ∅ _ _ reads).2 (.refl _)

end Abacus.Parse
