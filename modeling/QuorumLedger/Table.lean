namespace QuorumLedger

-- Entries keep the order in which their keys first came.
structure Table (κ α : Type) where
  entries : List (κ × α)
  deriving DecidableEq

namespace Table

variable {κ α : Type} [DecidableEq κ]

def empty : Table κ α :=
  ⟨[]⟩

instance : EmptyCollection (Table κ α) :=
  ⟨empty⟩

instance : Inhabited (Table κ α) :=
  ⟨empty⟩

def find (k : κ) : List (κ × α) → Option α
  | [] => none
  | (k', a) :: rest => if k' = k then some a else find k rest

def get? (t : Table κ α) (k : κ) : Option α :=
  find k t.entries

def contains (t : Table κ α) (k : κ) : Bool :=
  (t.get? k).isSome

def put (k : κ) (a : α) : List (κ × α) → List (κ × α)
  | [] => [(k, a)]
  | (k', a') :: rest => if k' = k then (k', a) :: rest else (k', a') :: put k a rest

-- A known key keeps its place, a new one comes last.
def set (t : Table κ α) (k : κ) (a : α) : Table κ α :=
  ⟨put k a t.entries⟩

def erase (t : Table κ α) (k : κ) : Table κ α :=
  ⟨t.entries.filter (fun e => e.1 ≠ k)⟩

-- Drops the entries whose key is not wanted.
def retain (t : Table κ α) (keep : κ → Bool) : Table κ α :=
  ⟨t.entries.filter (fun e => keep e.1)⟩

def keys (t : Table κ α) : List κ :=
  t.entries.map (·.1)

def size (t : Table κ α) : Nat :=
  t.entries.length

@[simp]
theorem get?_empty (k : κ) : (∅ : Table κ α).get? k = none :=
  rfl

theorem find_put (k k' : κ) (a : α) (entries : List (κ × α)) :
    find k' (put k a entries) = if k = k' then some a else find k' entries := by
  induction entries with
  | nil => simp [put, find]
  | cons e rest ih =>
    obtain ⟨l, b⟩ := e
    by_cases hl : l = k
    · by_cases hk : k = k' <;> simp [put, find, hl, hk]
    · by_cases hk : k = k'
      · subst hk
        simp [put, find, hl, ih]
      · simp [put, find, hl, hk, ih]

@[simp]
theorem get?_set (t : Table κ α) (k k' : κ) (a : α) :
    (t.set k a).get? k' = if k = k' then some a else t.get? k' :=
  find_put k k' a t.entries

theorem find_filter (keep : κ → Bool) (k : κ) (entries : List (κ × α)) :
    find k (entries.filter (fun e => keep e.1)) = if keep k then find k entries else none := by
  induction entries with
  | nil => simp [find]
  | cons e rest ih =>
    obtain ⟨l, b⟩ := e
    by_cases hl : keep l
    · by_cases hk : l = k
      · subst hk
        simp [find, hl]
      · simp [find, hl, hk, ih]
    · by_cases hk : l = k
      · subst hk
        simp [hl, ih]
      · simp [find, hl, hk, ih]

@[simp]
theorem get?_retain (t : Table κ α) (keep : κ → Bool) (k : κ) :
    (t.retain keep).get? k = if keep k then t.get? k else none :=
  find_filter keep k t.entries

@[simp]
theorem get?_erase (t : Table κ α) (k k' : κ) :
    (t.erase k).get? k' = if k = k' then none else t.get? k' := by
  have h := find_filter (fun l => decide (l ≠ k)) k' t.entries
  by_cases hk : k = k'
  · subst hk
    simpa [erase, get?] using h
  · have hk' : k' ≠ k := fun e => hk e.symm
    simpa [erase, get?, hk, hk'] using h

end Table

end QuorumLedger
