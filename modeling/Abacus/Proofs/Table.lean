import Abacus.Table
import Mathlib.Tactic.ByContra

/-!
# Laws of tables

What tables know after a pair or a whole table is written, and what all the pairs that a
table knows have in common.
-/

namespace Abacus

namespace Table

variable {κ ν : Type} [DecidableEq κ]

/-! ## Keys -/

theorem mem_keys {t : Table κ ν} {k : κ} {v : ν} (found : t.get? k = some v) : k ∈ t.keys := by
  by_contra absent
  rw [get?_eq_none absent] at found
  cases found

theorem exists_of_mem_keys {t : Table κ ν} {k : κ} (member : k ∈ t.keys) :
    ∃ v, t.get? k = some v := by
  obtain ⟨entries⟩ := t
  change k ∈ entries.map Prod.fst at member
  change ∃ v, lookupIn k entries = some v
  induction entries with
  | nil => cases member
  | cons entry rest inductionHypothesis =>
    obtain ⟨k', v⟩ := entry
    rw [lookupIn]
    split
    · exact ⟨v, rfl⟩
    · rename_i other
      exact inductionHypothesis ((List.mem_cons.1 member).resolve_left (Ne.symm other))

/-- Whether all that a table knows is also known to another one. -/
def Within (t u : Table κ ν) : Prop := ∀ k v, t.get? k = some v → u.get? k = some v

theorem Within.refl (t : Table κ ν) : t.Within t := fun _ _ => id

theorem Within.trans {t u w : Table κ ν} (first : t.Within u) (second : u.Within w) : t.Within w :=
  fun k v found => second k v (first k v found)

theorem keys_insert (t : Table κ ν) (k : κ) (v : ν) :
    (t.insert k v).keys = if k ∈ t.keys then t.keys else t.keys ++ [k] := by
  obtain ⟨entries⟩ := t
  change (writeIn k v entries).map Prod.fst = if k ∈ entries.map Prod.fst then _ else _
  induction entries with
  | nil => rfl
  | cons entry rest inductionHypothesis =>
    obtain ⟨k', v'⟩ := entry
    rw [writeIn]
    by_cases same : k' = k
    · simp [same, keys]
    · simp only [keys] at inductionHypothesis
      simp only [if_neg same, List.map_cons, inductionHypothesis, List.mem_cons, Ne.symm same,
        false_or, keys]
      split <;> simp

theorem nodup_insert {t : Table κ ν} (distinct : t.keys.Nodup) (k : κ) (v : ν) :
    (t.insert k v).keys.Nodup := by
  rw [keys_insert]
  split
  · exact distinct
  · rename_i absent
    exact List.nodup_append.2 ⟨distinct, by simp,
      fun a member b last same => absent (by rw [← List.mem_singleton.1 last, ← same]; exact member)⟩

theorem forall_insert {P : κ → ν → Prop} {t : Table κ ν} (each : ∀ k v, t.get? k = some v → P k v)
    {k : κ} {v : ν} (new : P k v) : ∀ k' v', (t.insert k v).get? k' = some v' → P k' v' := by
  intro k' v' found
  rw [Table.get?_insert] at found
  split at found
  · rename_i same
    cases found
    exact same ▸ new
  · exact each k' v' found

theorem Within.insert {t : Table κ ν} {k : κ} (absent : t.get? k = none) (v : ν) :
    t.Within (t.insert k v) := by
  intro k' v' found
  rw [Table.get?_insert_of_ne _ _ fun same => ?_]
  · exact found
  · rw [← same, absent] at found
    cases found

theorem get?_erase_eq_some {t : Table κ ν} {k k' : κ} {v : ν} :
    (t.erase k).get? k' = some v ↔ k ≠ k' ∧ t.get? k' = some v := by
  rw [get?_erase]
  split <;> simp [*]

theorem entries_insert {t : Table κ ν} {k : κ} (absent : t.get? k = none) (v : ν) :
    (t.insert k v).entries = t.entries ++ [(k, v)] := by
  obtain ⟨entries⟩ := t
  change lookupIn k entries = none at absent
  change writeIn k v entries = entries ++ [(k, v)]
  induction entries with
  | nil => rfl
  | cons entry rest inductionHypothesis =>
    rw [lookupIn] at absent
    rw [writeIn]
    split at absent
    · cases absent
    · rename_i other
      rw [if_neg other, inductionHypothesis absent, List.cons_append]

theorem mem_entries {t : Table κ ν} {k : κ} {v : ν} (found : t.get? k = some v) :
    (k, v) ∈ t.entries := by
  obtain ⟨entries⟩ := t
  change lookupIn k entries = some v at found
  induction entries with
  | nil => cases found
  | cons entry rest inductionHypothesis =>
    rw [lookupIn] at found
    split at found
    · rename_i same
      cases found
      exact same ▸ List.mem_cons_self
    · exact List.mem_cons_of_mem _ (inductionHypothesis found)

/-! ## Taking back -/

/-- Writing the value back that a key had before undoes what was written over it. -/
theorem insert_insert {t : Table κ ν} {k : κ} {v : ν} (known : t.get? k = some v) (w : ν) :
    (t.insert k w).insert k v = t := by
  obtain ⟨entries⟩ := t
  change lookupIn k entries = some v at known
  suffices writeIn k v (writeIn k w entries) = entries from congrArg Table.mk this
  induction entries with
  | nil => cases known
  | cons entry rest inductionHypothesis =>
    obtain ⟨k', v'⟩ := entry
    rw [lookupIn] at known
    rw [writeIn]
    split at known
    · rename_i same
      cases known
      rw [if_pos same, writeIn, if_pos rfl, same]
    · rename_i other
      rw [if_neg other, writeIn, if_neg other, inductionHypothesis known]

theorem erase_insert {t : Table κ ν} {k : κ} (unknown : t.get? k = none) (w : ν) :
    (t.insert k w).erase k = t := by
  obtain ⟨entries⟩ := t
  change lookupIn k entries = none at unknown
  suffices (writeIn k w entries).filter (fun e => e.1 ≠ k) = entries from congrArg Table.mk this
  induction entries with
  | nil => simp [writeIn]
  | cons entry rest inductionHypothesis =>
    obtain ⟨k', v'⟩ := entry
    rw [lookupIn] at unknown
    split at unknown
    · cases unknown
    · rename_i other
      rw [writeIn, if_neg other, List.filter_cons_of_pos (by simpa using other),
        inductionHypothesis unknown]

/-! ## Changed values -/

def mapValues {μ : Type} (f : ν → μ) (t : Table κ ν) : Table κ μ :=
  ⟨t.entries.map fun e => (e.1, f e.2)⟩

theorem get?_mapValues {μ : Type} (f : ν → μ) (t : Table κ ν) (k : κ) :
    (t.mapValues f).get? k = (t.get? k).map f := by
  obtain ⟨entries⟩ := t
  show lookupIn k (entries.map fun e => (e.1, f e.2)) = (lookupIn k entries).map f
  induction entries with
  | nil => rfl
  | cons entry rest inductionHypothesis =>
    rw [List.map_cons, lookupIn, lookupIn, inductionHypothesis]
    split <;> rfl

/-! ## Many pairs -/

theorem get?_insertAll (t u : Table κ ν) (distinct : u.keys.Nodup) (k : κ) :
    (t.insertAll u).get? k = (u.get? k).or (t.get? k) := by
  obtain ⟨entries⟩ := u
  change (entries.foldl (fun t e => t.insert e.1 e.2) t).get? k = (lookupIn k entries).or (t.get? k)
  change (entries.map Prod.fst).Nodup at distinct
  induction entries generalizing t with
  | nil => rfl
  | cons entry rest inductionHypothesis =>
    obtain ⟨k', v⟩ := entry
    rw [List.map_cons, List.nodup_cons] at distinct
    rw [List.foldl_cons, inductionHypothesis _ distinct.2, lookupIn, get?_insert]
    split
    · rename_i same
      subst same
      have absent : lookupIn k' rest = none := get?_eq_none (t := ⟨rest⟩) distinct.1
      rw [absent]
      rfl
    · rfl

theorem forall_ofList {P : κ → ν → Prop} {pairs : List (κ × ν)} (all : ∀ e ∈ pairs, P e.1 e.2) :
    ∀ k v, (ofList pairs).get? k = some v → P k v := by
  have folds (t : Table κ ν) (before : ∀ k v, t.get? k = some v → P k v) :
      ∀ k v, (pairs.foldl (fun t e => t.insert e.1 e.2) t).get? k = some v → P k v := by
    induction pairs generalizing t with
    | nil => exact before
    | cons e rest inductionHypothesis =>
      rw [List.forall_mem_cons] at all
      exact inductionHypothesis all.2 _ (forall_insert before all.1)
  exact folds ∅ fun _ _ impossible => by cases impossible

theorem forall_ofList_map {γ : Type} {P : κ → ν → Prop} {key : γ → κ} {value : γ → ν} {xs : List γ}
    (each : ∀ x ∈ xs, P (key x) (value x)) :
    ∀ k v, (ofList (xs.map fun x => (key x, value x))).get? k = some v → P k v :=
  forall_ofList (List.forall_mem_map.2 each)

end Table

end Abacus
