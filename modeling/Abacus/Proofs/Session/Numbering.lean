import Abacus.Proofs.Session.Protected

/-!
# Numbers in sessions

The cells and the functions of a session have numbers below the next one, which counts up.  No two
functions have the same number, and nothing has been defined under the numbers to come.
-/

namespace Abacus

open Eval Fallible Parse

namespace Session

/-- Cells with numbers below `fresh`, and functions that own numbers below `fresh`. -/
def owners (owner : Nat → UserFunction) (fresh : Nat) : Vocabulary where
  cell c := c.id < fresh
  function u := owner u.id = u ∧ u.id < fresh ∧ ∀ c ∈ u.parameters, c.id < fresh

theorem owners_spares (owner : Nat → UserFunction) (fresh : Nat) :
    (owners owner fresh).Spares (fresh ≤ ·) where
  cell _ less _ := Nat.not_le.2 less
  function _ known c member := Nat.not_le.2 (known.2.2 c member)

/-- Sessions over a grammar that only know cells and functions with numbers below the next one, and
    whose functions own their numbers. -/
structure Numbered (g : Grammar) (owner : Nat → UserFunction) (s : Session) : Prop where
  grammar : s.grammar = g
  names : ∀ name c, s.names.get? name = some c → c.id < s.fresh
  functions : ∀ key u, s.functions.get? key = some (.user u) →
    (owners owner s.fresh).function u
  store : s.store.Uses (owners owner s.fresh)
  unused : ∀ id, s.fresh ≤ id → s.store.definitions.get? id = none
  fresh : constants.length ≤ s.fresh

section

variable {owner owner' : Nat → UserFunction} {fresh fresh' : Nat}

theorem owns_of_le (le : fresh ≤ fresh') (same : ∀ n < fresh, owner' n = owner n) {u : UserFunction}
    (known : (owners owner fresh).function u) : (owners owner' fresh').function u := by
  obtain ⟨owns, less, parameters⟩ := known
  exact ⟨(same u.id less).trans owns, Nat.lt_of_lt_of_le less le,
    fun c member => Nat.lt_of_lt_of_le (parameters c member) le⟩

theorem uses_of_le (le : fresh ≤ fresh') (same : ∀ n < fresh, owner' n = owner n) {e : Expr}
    (uses : e.Uses (owners owner fresh)) : e.Uses (owners owner' fresh') :=
  Expr.Uses.weaken (V := owners owner fresh) (W := owners owner' fresh')
    (fun _ less => Nat.lt_of_lt_of_le less le) (fun _ => owns_of_le le same) (fun _ => id) uses

end

namespace Numbered

variable {p : Grammar.Plan} {g : Grammar} {owner owner' : Nat → UserFunction} {s s' : Session}

theorem start (settings : Settings) (owner : Nat → UserFunction) :
    Numbered g owner { Session.start g with settings } where
  grammar := rfl
  names := Table.forall_ofList_map id_lt_of_constants
  functions := by
    have builtin : ∀ key f, builtins.get? key = some f → f.isBuiltin = true :=
      Table.forall_ofList_map fun _ _ => rfl
    intro key u known
    cases builtin key _ known
  store := start_all g fun _ => True.intro
  unused := by
    have same : Store.SameAt (constants.length ≤ ·) {} (Store.defineAll {} constants) :=
      .defineAll {} fun entry among => Nat.not_le.2 (id_lt_of_constants entry among)
    exact same
  fresh := Nat.le_refl _

theorem grow (before : Numbered g owner s) (le : s.fresh ≤ s'.fresh)
    (same : ∀ n < s.fresh, owner' n = owner n) (grammar : s'.grammar = s.grammar)
    (names : ∀ name c, s'.names.get? name = some c →
      s.names.get? name = some c ∨ c.id < s'.fresh)
    (functions : ∀ key u, s'.functions.get? key = some (.user u) →
      s.functions.get? key = some (.user u) ∨ (owners owner' s'.fresh).function u)
    (store : s'.store = s.store) : Numbered g owner' s' where
  grammar := grammar.trans before.grammar
  names name c known :=
    (names name c known).elim (fun old => Nat.lt_of_lt_of_le (before.names name c old) le) id
  functions key u known :=
    (functions key u known).elim (fun old => owns_of_le le same (before.functions key u old)) id
  store := by
    rw [store]
    exact ⟨fun c => uses_of_le le same (before.store.1 c),
      fun u => uses_of_le le same (before.store.2 u)⟩
  unused id later := store ▸ before.unused id (Nat.le_trans le later)
  fresh := Nat.le_trans before.fresh le

theorem keepsTo (before : Numbered g owner s) {n : Nat} (le : s.fresh ≤ n) :
    s.scope.KeepsTo (owners owner n) where
  parameters _ _ impossible := by cases impossible
  names name c known := Nat.lt_of_lt_of_le (before.names name c known) le
  functions key u known := owns_of_le le (fun _ _ => rfl) (before.functions key u known)
  leading c leads := by
    cases eq_ansCell_of_leads leads
    exact Nat.lt_of_lt_of_le (Nat.lt_of_lt_of_le (by decide) before.fresh) le
  modifiers _ := True.intro

section

variable (accepted : p.toGrammar = .ok g) (before : Numbered g owner s)

include accepted before

/-- The variables that a line creates take the next numbers. -/
theorem withCreated {scope : Scope} (grammar : scope.grammar = g) (fresh : scope.fresh = s.fresh)
    {line : String} {parsed : Parsed}
    (keeps : scope.KeepsTo (owners owner (s.fresh + parsed.created.size)))
    (parses : Parse.parse scope line = .ok parsed) :
    Numbered g owner (s.withCreated parsed.created) ∧
      ∀ e ∈ parsed.expr, e.Uses (owners owner (s.fresh + parsed.created.size)) := by
  obtain ⟨creates, uses⟩ := uses_of_parse (grammar ▸ accepted) keeps parses
    fun _ _ _ less => fresh ▸ less
  refine ⟨before.grow (Nat.le_add_right _ _) (fun _ _ => rfl) rfl (fun name c found => ?_)
    (fun _ _ => .inl) rfl, uses⟩
  have read := Table.get?_insertAll s.names parsed.created creates.distinct name
  rcases Option.or_eq_some_iff.1 (read.symm.trans found) with new | ⟨_, known⟩
  · have less := (recorded_of_parse (grammar ▸ accepted) parses).id_lt new
    rw [fresh] at less
    exact .inr less
  · exact .inl known

theorem parse {line : String} {expr : Option Expr} (parses : s.parse line = .ok (expr, s')) :
    Numbered g owner s' ∧ ∀ e ∈ expr, e.Uses (owners owner s'.fresh) := by
  obtain ⟨parsed, ends, same⟩ := bind_eq_ok.1 parses
  cases same
  exact before.withCreated accepted before.grammar rfl (before.keepsTo (Nat.le_add_right _ _)) ends

theorem effect (effect : s.Effect s') : ∃ owner', Numbered g owner' s' := by
  cases effect with
  | none => exact ⟨owner, before⟩
  | print parses => exact ⟨owner, (before.parse accepted parses).1⟩
  | @define headerText u text parsed e heads free parses body =>
    obtain ⟨parameters, new⟩ := fresh_of_header heads
    -- The new function becomes the owner of its number, which nobody owned.
    let owner' : Nat → UserFunction := fun n => if n = u.id then u else owner n
    have owns : (owners owner' (s.declare u).fresh).function u :=
      ⟨if_pos rfl, Nat.lt_succ_self _,
        fun c member => Nat.lt_succ_of_lt (parameters c member).2⟩
    have declared : Numbered g owner' (s.declare u) := by
      refine before.grow (Nat.le_succ_of_le new)
        (fun n less => if_neg (Nat.ne_of_lt (Nat.lt_of_lt_of_le less new))) rfl (fun _ _ => .inl)
        (fun key w known => ?_) rfl
      rw [declare, Table.get?_insert] at known
      split at known
      · cases known
        exact .inr owns
      · exact .inl known
    have le := Nat.le_add_right (s.declare u).fresh parsed.created.size
    have keeps : ((s.declare u).bodyScope u).KeepsTo (owners owner' _) :=
      { declared.keepsTo le with
        parameters := Table.forall_ofList_map fun c among =>
          Nat.lt_of_lt_of_le (owns.2.2 c among) le
        leading := fun _ impossible => by cases impossible }
    obtain ⟨created, uses⟩ := declared.withCreated accepted declared.grammar rfl keeps parses
    exact ⟨owner', { created with store := created.store.all.withBody (uses e body) }⟩
  | deleteFunction _ =>
    refine ⟨owner, { before with functions := fun key u known => ?_ }⟩
    exact before.functions key u (Table.get?_erase_eq_some.1 known).2
  | deleteVariable _ _ =>
    refine ⟨owner, { before with names := fun name c known => ?_ }⟩
    exact before.names name c (Table.get?_erase_eq_some.1 known).2

omit accepted in
theorem evaluate {budget : Nat} {e : Expr} (uses : e.Uses (owners owner s.fresh))
    {result : Except EvalError Value} (evaluates : s.evaluate (e.eval budget) = some (result, s')) :
    Numbered g owner s' := by
  obtain ⟨⟨_, store⟩, ends, same⟩ := Option.map_eq_some_iff.1 evaluates
  cases same
  obtain ⟨after, same⟩ := (owners_spares owner _).eval uses before.store ends
  exact { before with
    store := after
    unused := fun id later => (same id later).trans (before.unused id later) }

omit accepted in
theorem remember (w : Value) : Numbered g owner (s.remember w) := by
  cases w with
  | none => exact before
  | some a =>
    have less : ansCell.id < s.fresh := Nat.lt_of_lt_of_le (by decide) before.fresh
    exact { before with
      store := before.store.define True.intro
      unused := fun id later =>
        (Table.get?_insert_of_ne _ _ (Nat.ne_of_lt (Nat.lt_of_lt_of_le less later))).trans
          (before.unused id later) }

end

end Numbered

theorem History.numbered {p : Grammar.Plan} {g : Grammar} (accepted : p.toGrammar = .ok g)
    {s : Session} {v : Value} (history : History g s v) : ∃ owner, Numbered g owner s := by
  refine history.keeps (P := fun s _ => ∃ owner, Numbered g owner s) ?_
  exact
    { start := fun settings => ⟨fun n => ⟨n, "", []⟩, .start settings _⟩
      adjust := fun settings ⟨owner, before⟩ => ⟨owner, { before with }⟩
      effect := fun ⟨_, before⟩ effect => before.effect accepted effect
      parse := fun ⟨owner, before⟩ parses => ⟨owner, (before.parse accepted parses).1⟩
      evaluate := fun ⟨owner, before⟩ parses evaluates => by
        obtain ⟨between, uses⟩ := before.parse accepted parses
        exact ⟨owner, between.evaluate (uses _ rfl) evaluates⟩
      remember := fun w ⟨owner, before⟩ => ⟨owner, before.remember w⟩ }

end Session

end Abacus
