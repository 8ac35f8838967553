import Abacus.Proofs.Parse.Fallible
import Abacus.Proofs.Table
import Mathlib.Data.List.Forall2

/-!
# Variables that a parse creates

A parse only adds variables, and what it says of a name stays true when the rest of the
line adds more of them.
-/

namespace Abacus

namespace Parse

open Fallible

/-! ## Created variables -/

/-- Variables that a line mentions for the first time. -/
structure Scope.Creates (scope : Scope) (created : Table String Cell) : Prop where
  named : ∀ name c, created.get? name = some c → c.name = name
  unknown : ∀ name c, created.get? name = some c →
    scope.parameters.get? name = none ∧ scope.names.get? name = none
  new : ∀ name c, created.get? name = some c → c.kind = .variable ∧ scope.fresh ≤ c.id
  distinct : created.keys.Nodup

theorem Scope.Creates.empty (scope : Scope) : scope.Creates ∅ where
  named _ _ impossible := by cases impossible
  unknown _ _ impossible := by cases impossible
  new _ _ impossible := by cases impossible
  distinct := List.nodup_nil

/-- The cell that a name refers to. -/
def Scope.lookup (scope : Scope) (created : Table String Cell) (name : String) : Option Cell :=
  (scope.parameters.get? name).or ((scope.names.get? name).or (created.get? name))

/-- Whether a parse only adds to the created variables, and its result satisfies `P` however many
    more of them are created later. -/
def Parsing.Gathers {α : Type} (scope : Scope) (P : Table String Cell → α → Prop) (m : Parsing α) :
    Prop :=
  ∀ created a created', scope.Creates created → m.run created = .ok (a, created') →
    scope.Creates created' ∧ created.Within created' ∧ ∀ final, created'.Within final → P final a

namespace Parsing

variable {α β : Type} {scope : Scope} {P : Table String Cell → α → Prop}
  {Q : Table String Cell → β → Prop}

theorem Gathers.result {a : α} (good : ∀ final, P final a) :
    Gathers scope P (pure a : Parsing α) := by
  intro created b created' creates ends
  cases ends
  exact ⟨creates, .refl _, fun final _ => good final⟩

theorem Gathers.failure (cause : ParseError) : Gathers scope P (throw cause : Parsing α) :=
  fun _ _ _ _ impossible => by cases impossible

theorem Gathers.bind_of {m : Parsing α} {f : α → Parsing β} (first : Gathers scope P m)
    (second : ∀ a final, P final a → Gathers scope (fun final b => P final a → Q final b) (f a)) :
    Gathers scope Q (m >>= f) := by
  intro created b created' creates ends
  rw [StateT.run_bind] at ends
  obtain ⟨⟨a, between⟩, left, right⟩ := bind_eq_ok.1 ends
  obtain ⟨creates, grows, good⟩ := first created a between creates left
  obtain ⟨creates', grows', good'⟩ :=
    second a between (good between (.refl _)) between b created' creates right
  exact ⟨creates', grows.trans grows', fun final within =>
    good' final within (good final (grows'.trans within))⟩

theorem Gathers.bind {m : Parsing α} {f : α → Parsing β} (first : Gathers scope P m)
    (second : ∀ a, Gathers scope (fun final b => P final a → Q final b) (f a)) :
    Gathers scope Q (m >>= f) :=
  .bind_of first fun a _ _ => second a

theorem Gathers.weaken {R : Table String Cell → α → Prop} {m : Parsing α} (gathers : Gathers scope P m)
    (imp : ∀ final a, P final a → R final a) : Gathers scope R m := by
  intro created a created' creates ends
  obtain ⟨creates, grows, good⟩ := gathers created a created' creates ends
  exact ⟨creates, grows, fun final within => imp final a (good final within)⟩

theorem Gathers.mapM {γ : Type} {R : Table String Cell → γ → β → Prop} {f : γ → Parsing β} {cs : List γ}
    (each : ∀ c ∈ cs, Gathers scope (fun final b => R final c b) (f c)) :
    Gathers scope (fun final bs => List.Forall₂ (R final) cs bs) (cs.mapM f) := by
  induction cs with
  | nil => exact .result fun _ => .nil
  | cons c cs inductionHypothesis =>
    rw [List.forall_mem_cons] at each
    rw [List.mapM_cons]
    exact .bind each.1 fun b => .bind (inductionHypothesis each.2) fun bs =>
      .result fun final rest first => .cons first rest

theorem Gathers.ofExcept {x : Except ParseError α} (good : ∀ a, x = .ok a → ∀ final, P final a) :
    Gathers scope P (liftM x : Parsing α) := by
  intro created a created' creates ends
  cases x with
  | error cause => cases ends
  | ok b =>
    cases ends
    exact ⟨creates, .refl _, fun final _ => good _ rfl final⟩

end Parsing

open Parsing

theorem Scope.lookup_within {scope : Scope} {created final : Table String Cell}
    (within : created.Within final) {name : String} {c : Cell}
    (found : scope.lookup created name = some c) : scope.lookup final name = some c := by
  simp only [Scope.lookup, Option.or_eq_some_iff] at found ⊢
  exact found.imp id (.imp id (.imp id (.imp id (within name c))))

theorem Scope.Creates.insert {scope : Scope} {created : Table String Cell} (creates : scope.Creates created)
    {name : String} (unknown : scope.parameters.get? name = none ∧ scope.names.get? name = none)
    {id : Nat} (fresh : scope.fresh ≤ id) : scope.Creates (created.insert name ⟨id, name, .variable⟩) where
  named := Table.forall_insert creates.named rfl
  unknown := Table.forall_insert creates.unknown unknown
  new := Table.forall_insert creates.new ⟨rfl, fresh⟩
  distinct := Table.nodup_insert creates.distinct _ _

/-- A name that leads nowhere gets a new variable, and nothing else is created. -/
theorem cell_cases {scope : Scope} {name : String} {created created' : Table String Cell} {c : Cell}
    (ends : (scope.cell name).run created = .ok (c, created')) :
    (scope.lookup created name = some c ∧ created' = created) ∨
      (scope.lookup created name = none ∧ c = ⟨scope.fresh + created.size, name, .variable⟩ ∧
        created' = created.insert name c) := by
  unfold Scope.cell at ends
  obtain ⟨_, _, same, ends⟩ := run_bind_eq_ok.1 ends
  cases same
  cases found : scope.lookup created name with
  | some d =>
    rw [Scope.lookup] at found
    rw [found] at ends
    cases ends
    exact .inl ⟨rfl, rfl⟩
  | none =>
    rw [Scope.lookup] at found
    rw [found] at ends
    cases ends
    exact .inr ⟨rfl, rfl, rfl⟩

theorem Scope.lookup_eq_none {scope : Scope} {created : Table String Cell} {name : String} :
    scope.lookup created name = none ↔ (scope.parameters.get? name = none ∧
      scope.names.get? name = none) ∧ created.get? name = none := by
  simp only [Scope.lookup, Option.or_eq_none_iff, and_assoc]

theorem Scope.lookup_insert {scope : Scope} {created : Table String Cell} {name : String}
    (unknown : scope.parameters.get? name = none ∧ scope.names.get? name = none) (c : Cell) :
    scope.lookup (created.insert name c) name = some c := by
  rw [Scope.lookup, unknown.1, unknown.2]
  exact Table.get?_insert_self _ _ _

theorem cell_of_known {scope : Scope} {name : String} {c : Cell}
    (known : ∀ created, scope.lookup created name = some c) : scope.cell name = pure c := by
  funext created
  have known := known created
  rw [Scope.lookup] at known
  have run : (scope.cell name).run created = .ok (c, created) := by
    unfold Scope.cell
    refine run_bind_eq_ok.2 ⟨created, created, rfl, ?_⟩
    rw [known]
    rfl
  exact run

theorem cell_gathers (scope : Scope) (name : String) :
    Gathers scope (fun final c => scope.lookup final name = some c) (scope.cell name) := by
  intro created c created' creates ends
  rcases cell_cases ends with ⟨found, rfl⟩ | ⟨found, rfl, rfl⟩
  · exact ⟨creates, .refl _, fun final within => Scope.lookup_within within found⟩
  · -- The name leads nowhere yet, so the new variable takes no other one's place.
    obtain ⟨unknown, absent⟩ := Scope.lookup_eq_none.1 found
    exact ⟨creates.insert unknown (Nat.le_add_right _ _), Table.Within.insert absent _,
      fun final within => Scope.lookup_within within (Scope.lookup_insert unknown _)⟩

/-! ## Parses with results -/

/-- The cell that a name leads to where a line has created some variables, and that of `unknown` for
    a name that leads nowhere. -/
def Scope.cellOf (scope : Scope) (unknown : String → Cell) (created : Table String Cell)
    (name : String) : Cell :=
  (scope.lookup created name).getD (unknown name)

/-- Whether a parse that starts with at least the created variables `base` has a result, which is
    what `result` says of all the variables that the line creates in the end. -/
def Parsing.Produces {α : Type} (scope : Scope) (base : Table String Cell)
    (result : Table String Cell → α) (m : Parsing α) : Prop :=
  ∀ created, scope.Creates created → base.Within created → ∃ a created',
    m.run created = .ok (a, created') ∧ scope.Creates created' ∧ created.Within created' ∧
      ∀ final, created'.Within final → result final = a

namespace Parsing

variable {α β γ : Type} {scope : Scope} {base : Table String Cell} {value : Table String Cell → α}
  {after : Table String Cell → β}

theorem Produces.result {a : α} (same : ∀ final, base.Within final → value final = a) :
    Produces scope base value (pure a) := fun created creates within =>
  ⟨a, created, rfl, creates, .refl _, fun final grows => same final (within.trans grows)⟩

theorem Produces.bind {m : Parsing α} {f : α → Parsing β} (first : Produces scope base value m)
    (second : ∀ between a, base.Within between → (∀ final, between.Within final → value final = a) →
      Produces scope between after (f a)) : Produces scope base after (m >>= f) := by
  intro created creates within
  obtain ⟨a, between, ends, creates, grows, same⟩ := first created creates within
  obtain ⟨b, created', ends', creates', grows', same'⟩ :=
    second between a (within.trans grows) same between creates (.refl _)
  exact ⟨b, created', by rw [StateT.run_bind]; exact bind_eq_ok.2 ⟨_, ends, ends'⟩, creates',
    grows.trans grows', same'⟩

theorem Produces.map {m : Parsing α} (produces : Produces scope base value m) (f : α → β) :
    Produces scope base (fun final => f (value final)) (do return f (← m)) :=
  .bind produces fun _ _ _ same => .result fun final within => congrArg f (same final within)

theorem Produces.congr {value' : Table String Cell → α} {m : Parsing α}
    (produces : Produces scope base value m) (same : ∀ final, value' final = value final) :
    Produces scope base value' m := by
  rwa [funext same]

theorem Produces.grow {m : Parsing α} {more : Table String Cell}
    (produces : Produces scope base value m) (within : base.Within more) :
    Produces scope more value m :=
  fun created creates grows => produces created creates (within.trans grows)

theorem Produces.ofExcept {x : Except ParseError α} {a : α} (ends : x = .ok a)
    (same : ∀ final, base.Within final → value final = a) :
    Produces scope base value (liftM x : Parsing α) := by
  subst ends
  exact .result same

theorem Produces.mapM {f : α → Parsing β} {text : γ → α} {results : γ → Table String Cell → β}
    {cs : List γ} (each : ∀ c ∈ cs, Produces scope base (results c) (f (text c))) :
    Produces scope base (fun final => cs.map fun c => results c final) ((cs.map text).mapM f) := by
  induction cs generalizing base with
  | nil => exact .result fun _ _ => rfl
  | cons c cs inductionHypothesis =>
    rw [List.forall_mem_cons] at each
    rw [List.map_cons, List.mapM_cons]
    refine .bind each.1 fun between b within same => .bind
      (inductionHypothesis fun c member => (each.2 c member).grow within)
      fun last bs grows sameRest => .result fun final within => ?_
    rw [List.map_cons, same final (grows.trans within), sameRest final within]

end Parsing

theorem produces_cell (scope : Scope) (unknown : String → Cell) (base : Table String Cell)
    (name : String) :
    Produces scope base (fun final => scope.cellOf unknown final name) (scope.cell name) := by
  intro created creates _
  obtain ⟨⟨c, created'⟩, ends⟩ : ∃ result, (scope.cell name).run created = .ok result := by
    unfold Scope.cell
    rw [StateT.run_bind]
    cases found : (scope.parameters.get? name).or ((scope.names.get? name).or (created.get? name)) with
    | some c => exact ⟨_, bind_eq_ok.2 ⟨_, rfl, by rw [found]; rfl⟩⟩
    | none => exact ⟨_, bind_eq_ok.2 ⟨_, rfl, by rw [found]; rfl⟩⟩
  obtain ⟨creates', grows, found⟩ := cell_gathers scope name created c created' creates ends
  refine ⟨c, created', ends, creates', grows, fun final within => ?_⟩
  dsimp only [Scope.cellOf]
  rw [found final within, Option.getD_some]

end Parse

end Abacus
