import QuorumLedger.Ledger.Id

namespace QuorumLedger

-- Names an output by its transaction and its place there.
structure OutputRef where
  tx : TxId
  index : UInt32
  deriving DecidableEq

structure Output where
  value : UInt64
  receiver : WalletId
  deriving DecidableEq

namespace OutputRef

-- References are ordered by transaction, then by place.
def rank (r : OutputRef) : Nat :=
  r.tx.value.toNat * UInt32.size + r.index.toNat

theorem rank_inj {a b : OutputRef} (h : a.rank = b.rank) : a = b := by
  obtain ⟨⟨s⟩, i⟩ := a
  obtain ⟨⟨t⟩, j⟩ := b
  have hi := i.toNat_lt
  have hj := j.toNat_lt
  simp only [rank, UInt32.size] at h
  have hst : s.toNat = t.toNat := by omega
  have hij : i.toNat = j.toNat := by omega
  rw [UInt32.toNat_inj.mp hst, UInt32.toNat_inj.mp hij]

def diagnostic (r : OutputRef) : String :=
  s!"Input \x7b tx_id: {r.tx.diagnostic}, output_index: {r.index.toNat} \x7d"

end OutputRef

abbrev UnspentEntry := OutputRef × Output

structure UnspentSet where
  entries : List UnspentEntry
  sorted : entries.Pairwise fun a b => a.1.rank < b.1.rank
  deriving DecidableEq

namespace UnspentSet

def empty : UnspentSet :=
  ⟨[], .nil⟩

instance : EmptyCollection UnspentSet :=
  ⟨empty⟩

instance : Inhabited UnspentSet :=
  ⟨empty⟩

def find (r : OutputRef) : List UnspentEntry → Option Output
  | [] => none
  | e :: rest => if e.1 = r then some e.2 else find r rest

def get? (u : UnspentSet) (r : OutputRef) : Option Output :=
  find r u.entries

def contains (u : UnspentSet) (r : OutputRef) : Bool :=
  (u.get? r).isSome

def put (r : OutputRef) (o : Output) : List UnspentEntry → List UnspentEntry
  | [] => [(r, o)]
  | e :: rest =>
    if r.rank < e.1.rank then (r, o) :: e :: rest
    else if e.1 = r then (r, o) :: rest
    else e :: put r o rest

theorem mem_put {r : OutputRef} {o : Output} {e : UnspentEntry} {entries : List UnspentEntry}
    (h : e ∈ put r o entries) : e = (r, o) ∨ e ∈ entries := by
  induction entries with
  | nil => simpa [put] using h
  | cons e' rest ih =>
    unfold put at h
    split at h
    · simpa using h
    · split at h
      · rcases List.mem_cons.mp h with h | h
        · exact .inl h
        · exact .inr (List.mem_cons_of_mem _ h)
      · rcases List.mem_cons.mp h with h | h
        · exact .inr (h ▸ List.mem_cons_self)
        · exact (ih h).imp id (List.mem_cons_of_mem _)

theorem pairwise_put {r : OutputRef} {o : Output} {entries : List UnspentEntry}
    (h : entries.Pairwise fun a b => a.1.rank < b.1.rank) :
    (put r o entries).Pairwise fun a b => a.1.rank < b.1.rank := by
  induction entries with
  | nil => simp [put]
  | cons e rest ih =>
    obtain ⟨he, hrest⟩ := List.pairwise_cons.mp h
    unfold put
    split
    · rename_i hlt
      refine List.pairwise_cons.mpr ⟨fun b hb => ?_, h⟩
      rcases List.mem_cons.mp hb with hb | hb
      · exact hb ▸ hlt
      · exact Nat.lt_trans hlt (he b hb)
    · split
      · rename_i heq
        subst heq
        exact List.pairwise_cons.mpr ⟨he, hrest⟩
      · rename_i hge hne
        refine List.pairwise_cons.mpr ⟨fun b hb => ?_, ih hrest⟩
        rcases mem_put hb with hb | hb
        · subst hb
          have : e.1.rank ≠ r.rank := fun hr => hne (OutputRef.rank_inj hr)
          simp only
          omega
        · exact he b hb

-- A live reference gets the new output.
def insert (u : UnspentSet) (r : OutputRef) (o : Output) : UnspentSet :=
  ⟨put r o u.entries, pairwise_put u.sorted⟩

def erase (u : UnspentSet) (r : OutputRef) : UnspentSet :=
  ⟨u.entries.filter (fun e => !decide (e.1 = r)), u.sorted.filter _⟩

def filter (u : UnspentSet) (keep : UnspentEntry → Bool) : UnspentSet :=
  ⟨u.entries.filter keep, u.sorted.filter keep⟩

def size (u : UnspentSet) : Nat :=
  u.entries.length

def isEmpty (u : UnspentSet) : Bool :=
  u.entries.isEmpty

-- One output for each wallet, of transactions numbered from `first` in the order of the list.
def fund (coins : UInt64) : (first : Nat) → List WalletId → UnspentSet → UnspentSet
  | _, [], u => u
  | i, w :: rest, u => fund coins (i + 1) rest (u.insert ⟨⟨UInt32.ofNat i⟩, 0⟩ ⟨coins, w⟩)

def genesis (wallets : List WalletId) (coins : UInt64) : UnspentSet :=
  fund coins 0 wallets ∅

def ownedBy (u : UnspentSet) (w : WalletId) : UnspentSet :=
  u.filter fun e => e.2.receiver = w

-- The sum of two values, or the largest value if it does not fit.
def saturatingAdd (a b : UInt64) : UInt64 :=
  UInt64.ofNat (min (a.toNat + b.toNat) (UInt64.size - 1))

def balanceOf (u : UnspentSet) (w : WalletId) : UInt64 :=
  (u.ownedBy w).entries.foldl (fun total e => saturatingAdd total e.2.value) 0

theorem find_put (r r' : OutputRef) (o : Output) {entries : List UnspentEntry}
    (h : entries.Pairwise fun a b => a.1.rank < b.1.rank) :
    find r' (put r o entries) = if r = r' then some o else find r' entries := by
  induction entries with
  | nil => simp [put, find]
  | cons e rest ih =>
    have hrest := (List.pairwise_cons.mp h).2
    unfold put
    split
    · simp [find]
    · split
      · rename_i heq
        subst heq
        by_cases hr : e.1 = r' <;> simp [find, hr]
      · rename_i hne
        by_cases hr : r = r'
        · subst hr
          simp [find, hne, ih hrest]
        · simp [find, hr, ih hrest]

@[simp]
theorem get?_empty (r : OutputRef) : (∅ : UnspentSet).get? r = none :=
  rfl

@[simp]
theorem get?_insert (u : UnspentSet) (r r' : OutputRef) (o : Output) :
    (u.insert r o).get? r' = if r = r' then some o else u.get? r' :=
  find_put r r' o u.sorted

@[simp]
theorem get?_erase (u : UnspentSet) (r r' : OutputRef) :
    (u.erase r).get? r' = if r = r' then none else u.get? r' := by
  have h : ∀ entries : List UnspentEntry, find r' (entries.filter (fun e => !decide (e.1 = r))) =
      if r = r' then none else find r' entries := by
    intro entries
    induction entries with
    | nil => simp [find]
    | cons e rest ih =>
      by_cases he : e.1 = r
      · by_cases hr : r = r'
        · simpa [he, hr] using ih
        · simp [he, hr, find, ih]
      · by_cases hr : r = r'
        · subst hr
          simp [he, find, ih]
        · simp [he, hr, find, ih]
  exact h u.entries

end UnspentSet

-- What a transaction is checked against: the unspent outputs and the wallets that may be paid.
structure LedgerView where
  unspent : UnspentSet
  receivers : List WalletId
  deriving DecidableEq

end QuorumLedger
