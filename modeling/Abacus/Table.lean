/-!
# Tables

A table maps finitely many keys to values and keeps its keys in the order in
which they first came.  Writing a key that is present replaces its value in
place.  Every operation has one law that says what `get?` reads afterwards, and
these laws need no assumption about the table.
-/

namespace Abacus

/-- A finite map whose keys keep the order in which they first came. -/
structure Table (κ : Type) (ν : Type) where
  /-- The pairs of key and value, oldest key first. -/
  entries : List (κ × ν) := []

namespace Table

variable {κ ν : Type}

instance : EmptyCollection (Table κ ν) := ⟨⟨[]⟩⟩

instance : Inhabited (Table κ ν) := ⟨∅⟩

def keys (t : Table κ ν) : List κ := t.entries.map Prod.fst

def values (t : Table κ ν) : List ν := t.entries.map Prod.snd

def size (t : Table κ ν) : Nat := t.entries.length

variable [DecidableEq κ]

/-- Reads the value of `k` off a list of pairs; the first pair counts. -/
def lookupIn (k : κ) : List (κ × ν) → Option ν
  | [] => none
  | (k', v) :: rest => if k' = k then some v else lookupIn k rest

/-- Replaces the value of `k` where it stands, or appends the pair. -/
def writeIn (k : κ) (v : ν) : List (κ × ν) → List (κ × ν)
  | [] => [(k, v)]
  | (k', v') :: rest => if k' = k then (k, v) :: rest else (k', v') :: writeIn k v rest

/-- The value of a key. -/
def get? (t : Table κ ν) (k : κ) : Option ν := lookupIn k t.entries

def contains (t : Table κ ν) (k : κ) : Bool := (t.get? k).isSome

/-- Gives `k` the value `v`. -/
def insert (t : Table κ ν) (k : κ) (v : ν) : Table κ ν := ⟨writeIn k v t.entries⟩

/-- Removes a key. -/
def erase (t : Table κ ν) (k : κ) : Table κ ν := ⟨t.entries.filter fun e => e.1 ≠ k⟩

/-- The table with these pairs; of two values for one key the later counts. -/
def ofList (pairs : List (κ × ν)) : Table κ ν :=
  pairs.foldl (fun t e => t.insert e.1 e.2) ∅

/-- Every pair of `u`, written over `t` in order. -/
def insertAll (t u : Table κ ν) : Table κ ν :=
  u.entries.foldl (fun t e => t.insert e.1 e.2) t

/-! ## What is read afterwards -/

@[simp] theorem get?_empty (k : κ) : (∅ : Table κ ν).get? k = none := rfl

theorem lookupIn_writeIn (k j : κ) (v : ν) (entries : List (κ × ν)) :
    lookupIn j (writeIn k v entries) = if k = j then some v else lookupIn j entries := by
  induction entries with
  | nil => simp [writeIn, lookupIn]
  | cons e rest ih =>
    obtain ⟨k', v'⟩ := e
    by_cases h : k' = k
    · subst h
      by_cases hj : k' = j <;> simp [writeIn, lookupIn, hj]
    · by_cases hj : k' = j
      · subst hj
        simp [writeIn, lookupIn, h, Ne.symm h]
      · simp [writeIn, lookupIn, h, hj, ih]

theorem get?_eq_none {t : Table κ ν} {k : κ} (h : k ∉ t.keys) : t.get? k = none := by
  obtain ⟨entries⟩ := t
  change lookupIn k entries = none
  change k ∉ entries.map Prod.fst at h
  induction entries with
  | nil => rfl
  | cons e rest ih =>
    rw [List.map_cons, List.mem_cons, not_or] at h
    rw [lookupIn, if_neg (Ne.symm h.1)]
    exact ih h.2

theorem get?_insert (t : Table κ ν) (k j : κ) (v : ν) :
    (t.insert k v).get? j = if k = j then some v else t.get? j :=
  lookupIn_writeIn k j v t.entries

@[simp] theorem get?_insert_self (t : Table κ ν) (k : κ) (v : ν) :
    (t.insert k v).get? k = some v := by
  simp [get?_insert]

theorem get?_insert_of_ne (t : Table κ ν) {k j : κ} (v : ν) (h : k ≠ j) :
    (t.insert k v).get? j = t.get? j := by
  simp [get?_insert, h]

theorem lookupIn_filter_ne (k j : κ) (entries : List (κ × ν)) :
    lookupIn j (entries.filter fun e => e.1 ≠ k) = if k = j then none else lookupIn j entries := by
  induction entries with
  | nil => simp [lookupIn]
  | cons e rest ih =>
    obtain ⟨k', v'⟩ := e
    by_cases h : k' = k
    · subst h
      by_cases hj : k' = j <;> simp_all [lookupIn]
    · by_cases hj : k' = j
      · subst hj
        simp [lookupIn, h, Ne.symm h]
      · simp_all [lookupIn]

theorem get?_erase (t : Table κ ν) (k j : κ) :
    (t.erase k).get? j = if k = j then none else t.get? j :=
  lookupIn_filter_ne k j t.entries

end Table

end Abacus
