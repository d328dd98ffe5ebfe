import QuorumLedger.Proofs.Ledger.BlockCheck
import QuorumLedger.Proofs.Ledger.MerkleTree
import QuorumLedger.Proofs.Ledger.Transfer
import QuorumLedger.Proofs.Ledger.Value

namespace QuorumLedger

-- The root is there or not by the length of what is hashed.
theorem Header.root_eq_of_idBytes {h h' : Header} (he : h.idBytes = h'.idBytes) :
    h.root = h'.root := by
  have hlength := congrArg List.length he
  obtain ⟨parent, root⟩ := h
  obtain ⟨parent', root'⟩ := h'
  cases root <;> cases root' <;> simp only [idBytes, List.length_append, Bytes32.length_toList]
    at he hlength
  · rfl
  · omega
  · omega
  · exact congrArg some (Bytes32.toList_inj (List.append_inj he (by simp)).2)

-- The parent comes first in what is hashed.
theorem Header.parent_eq_of_idBytes {h h' : Header} (he : h.idBytes = h'.idBytes) :
    h.parent = h'.parent := by
  have hfront : ∀ h : Header, h.parent.toList <+: h.idBytes := by
    rintro ⟨parent, _ | root⟩
    · exact List.prefix_rfl
    · exact List.prefix_append _ _
  have hprefix := hfront h'
  rw [← he] at hprefix
  have hlength : h.parent.toList.length = h'.parent.toList.length := by simp
  exact Bytes32.toList_inj <| (List.prefix_of_prefix_length_le (hfront h) hprefix
    (Nat.le_of_eq hlength)).eq_of_length hlength

namespace Block

variable {a b : Block} {view view' : LedgerView}

def leaves (b : Block) : List Digest :=
  b.transactions.map Transaction.digest

def transfers (b : Block) : List Transfer :=
  b.transactions.map Transaction.transfer

-- All strings that are hashed for the id.
def hashed (b : Block) : List Bytes :=
  b.transactions.map Transaction.digestBytes ++ (Merkle.hashed b.leaves ++ [b.header.idBytes])

theorem digestBytes_mem_hashed {t : Transaction} (ht : t ∈ b.transactions) :
    t.digestBytes ∈ b.hashed :=
  List.mem_append_left _ (List.mem_map_of_mem ht)

theorem nodeBytes_mem_hashed {p : Digest × Digest} (hp : p ∈ Merkle.paired b.leaves) :
    Merkle.nodeBytes p.1 p.2 ∈ b.hashed :=
  List.mem_append_right _ (List.mem_append_left _ (List.mem_map_of_mem hp))

theorem idBytes_mem_hashed (b : Block) : b.header.idBytes ∈ b.hashed := by
  simp [hashed]

-- A transaction of the first block is hashed as two neighbours in the tree of the second.
def HasNodeOf (a b : Block) : Prop :=
  ∃ t ∈ a.transactions, t.digestBytes ∈ Merkle.hashed b.leaves

-- Different transactions are hashed as one string, which takes a count that does not fit.
def Miscounted (transactions : List Transaction) : Prop :=
  ∃ s ∈ transactions, ∃ t ∈ transactions,
    ¬ s.transfer.Fits ∧ s.transfer ≠ t.transfer ∧ s.digestBytes = t.digestBytes

-- The second block moves what the first one does, then repeats some of its transactions that move
-- nothing.
structure Repeats (a b : Block) (rest : List Transfer) : Prop where
  transfers : b.transfers = a.transfers ++ rest
  earlier : ∀ m ∈ rest, m ∈ a.transfers
  empty : ∀ m ∈ rest, m.inputs = [] ∧ m.outputs = []

theorem injOn_bytes {transactions : List Transaction} (h : ¬ Miscounted transactions) :
    Set.InjOn Transfer.bytes {m | m ∈ transactions.map Transaction.transfer} := by
  rintro m hm n hn hmn
  obtain ⟨s, hs, rfl⟩ := List.mem_map.mp hm
  obtain ⟨t, ht, rfl⟩ := List.mem_map.mp hn
  by_contra hne
  by_cases hfits : s.transfer.Fits
  · by_cases hfits' : t.transfer.Fits
    · exact hne (Transfer.bytes_inj hfits hfits' hmn)
    · exact h ⟨t, ht, s, hs, hfits', fun he => hne he.symm, hmn.symm⟩
  · exact h ⟨s, hs, t, ht, hfits, hne, hmn⟩

theorem apart_of_hashed (h : ¬ Digest.Collides (a.hashed ++ b.hashed)) :
    Merkle.Apart a.leaves b.leaves := by
  have hnodes : ∀ c : Block, Merkle.hashed c.leaves ⊆ c.hashed := fun c x hx =>
    List.mem_append_right _ (List.mem_append_left _ hx)
  refine Merkle.apart_of_injOn ((Digest.injOn_of h).mono fun x hx => ?_)
  exact List.mem_append.mpr ((List.mem_append.mp hx).imp (hnodes a ·) (hnodes b ·))

-- A transaction whose digest is an inner node is hashed as that node is.
theorem hasNodeOf_of_inner {x : Digest} (h : ¬ Digest.Collides (a.hashed ++ b.hashed))
    (hleaf : x ∈ a.leaves) (hinner : x ∈ Merkle.inner b.leaves) : a.HasNodeOf b := by
  obtain ⟨t, ht, hx⟩ := List.mem_map.mp hleaf
  obtain ⟨p, hp, hjoin, -⟩ := Merkle.exists_paired b.leaves (.inr hinner)
  have hsame : t.digestBytes = Merkle.nodeBytes p.1 p.2 :=
    Digest.injOn_of h (List.mem_append_left _ (digestBytes_mem_hashed ht))
      (List.mem_append_right _ (nodeBytes_mem_hashed hp)) (hx.trans hjoin)
  exact ⟨t, ht, hsame ▸ List.mem_map_of_mem hp⟩

theorem padded_transfers (h : ¬ Digest.Collides (a.hashed ++ b.hashed))
    (hcount : ¬ Miscounted (a.transactions ++ b.transactions)) (hp : Padded a.leaves b.leaves) :
    Padded a.transfers b.transfers := by
  have hleaves : ∀ c : Block, c.leaves = (c.transfers.map Transfer.bytes).map Digest.of := by
    simp [leaves, transfers, Function.comp_def, Transaction.digest]
  have hhashed : ∀ c : Block, ∀ x ∈ c.transfers.map Transfer.bytes, x ∈ c.hashed := by
    intro c x hx
    obtain ⟨m, hm, rfl⟩ := List.mem_map.mp hx
    obtain ⟨t, ht, rfl⟩ := List.mem_map.mp hm
    rw [Transfer.bytes_transfer]
    exact digestBytes_mem_hashed ht
  have hdigests : Set.InjOn Digest.of
      {x | x ∈ a.transfers.map Transfer.bytes ++ b.transfers.map Transfer.bytes} :=
    (Digest.injOn_of h).mono fun x hx =>
      List.mem_append.mpr ((List.mem_append.mp hx).imp (hhashed a x) (hhashed b x))
  have hbytes : Set.InjOn Transfer.bytes {m | m ∈ a.transfers ++ b.transfers} := by
    simpa [transfers] using injOn_bytes hcount
  rw [hleaves a, hleaves b] at hp
  exact (hp.of_map hdigests).of_map hbytes

-- A checked block spends nothing twice, so what repeats in it spends nothing and pays nothing.
theorem repeats_of_padded (hb : b.check view = .ok ()) (h : Padded a.transfers b.transfers) :
    ∃ rest, a.Repeats b rest := by
  obtain ⟨rest, hrest⟩ := h.front
  have hearlier : ∀ m ∈ rest, m ∈ a.transfers := fun m hm =>
    h.within (hrest ▸ List.mem_append_right _ hm)
  refine ⟨rest, hrest.symm, hearlier, fun m hm => ?_⟩
  obtain ⟨front, back, hsplit, hfront, hback⟩ := List.map_eq_append_iff.mp hrest.symm
  obtain ⟨s, hs, hsm⟩ := List.mem_map.mp (hfront ▸ hearlier m hm)
  obtain ⟨t, ht, htm⟩ := List.mem_map.mp (hback ▸ hm)
  obtain ⟨-, hall, hspent⟩ := check_eq_ok_iff.mp hb
  rw [spent, nodup_inputsOf_iff, hsplit] at hspent
  have hdisjoint : s.inputs.Disjoint t.inputs := (List.pairwise_append.mp hspent.2).2.2 s hs t ht
  have hsame : s.inputs = t.inputs := congrArg Transfer.inputs (hsm.trans htm.symm)
  have hinputs : t.inputs = [] := by
    refine List.eq_nil_iff_forall_not_mem.mpr fun r hr => ?_
    exact hdisjoint (hsame ▸ hr) hr
  have hcheck := hall t (hsplit ▸ List.mem_append_right _ ht)
  rw [Transaction.check_eq_ok_iff] at hcheck
  have hempty := hcheck.resolve_right fun hfull => hfull.1 hinputs
  exact htm ▸ hempty

theorem root_leaves (h : b.check view = .ok ()) : Merkle.root b.leaves = b.header.root :=
  (check_eq_ok_iff.mp h).1

-- The id fixes what is moved, and in which order, but for repeats of empty transactions at the end.
-- The other ways out are strings that can be shown: two with one digest, one that is a transaction
-- here and a node there, one that stands for two transactions.
theorem repeats_of_id_eq (ha : a.check view = .ok ()) (hb : b.check view' = .ok ())
    (hid : a.id = b.id) :
    Digest.Collides (a.hashed ++ b.hashed) ∨ a.HasNodeOf b ∨ b.HasNodeOf a ∨
      Miscounted (a.transactions ++ b.transactions) ∨
      ∃ rest, a.Repeats b rest ∨ b.Repeats a rest := by
  by_cases h : Digest.Collides (a.hashed ++ b.hashed)
  · exact .inl h
  by_cases hcount : Miscounted (a.transactions ++ b.transactions)
  · exact .inr (.inr (.inr (.inl hcount)))
  have h' : ¬ Digest.Collides (b.hashed ++ a.hashed) := by simpa [Digest.Collides, or_comm] using h
  have hcount' : ¬ Miscounted (b.transactions ++ a.transactions) := by
    simpa [Miscounted, or_comm] using hcount
  have hbytes : a.header.idBytes = b.header.idBytes :=
    Digest.injOn_of h (List.mem_append_left _ (idBytes_mem_hashed a))
      (List.mem_append_right _ (idBytes_mem_hashed b)) hid
  have hroot : Merkle.root a.leaves = Merkle.root b.leaves := by
    rw [root_leaves ha, root_leaves hb, Header.root_eq_of_idBytes hbytes]
  cases Merkle.alike_of_root _ _ (apart_of_hashed h) hroot with
  | longer hp =>
      obtain ⟨rest, hrest⟩ := repeats_of_padded hb (padded_transfers h hcount hp)
      exact .inr (.inr (.inr (.inr ⟨rest, .inl hrest⟩)))
  | shorter hp =>
      obtain ⟨rest, hrest⟩ := repeats_of_padded ha (padded_transfers h' hcount' hp)
      exact .inr (.inr (.inr (.inr ⟨rest, .inr hrest⟩)))
  | below x hleaf hinner => exact .inr (.inl (hasNodeOf_of_inner h hleaf hinner))
  | above x hleaf hinner => exact .inr (.inr (.inl (hasNodeOf_of_inner h' hleaf hinner)))

section Twins

def firstWith (transactions : List Transaction) : Block :=
  (Draft.mk ⟨1⟩ .zero transactions).finalize

theorem check_firstWith {transactions : List Transaction}
    (hall : ∀ t ∈ transactions, t.check view = .ok ()) (hspent : (inputsOf transactions).Nodup) :
    (firstWith transactions).check view = .ok () :=
  check_eq_ok_iff.mpr ⟨rfl, hall, hspent⟩

-- Blocks of two sizes, the strings of one among those of the other, which have different digests.
theorem not_collides_or_same (hsub : b.hashed ⊆ a.hashed) (h : (a.hashed.map Digest.of).Nodup)
    (hlength : a.transactions.length ≠ b.transactions.length) :
    ¬ (Digest.Collides (a.hashed ++ b.hashed) ∨ a.transfers = b.transfers) := by
  rintro (⟨x, hx, y, hy, hne, hxy⟩ | hsame)
  · have hall : a.hashed ++ b.hashed ⊆ a.hashed := List.append_subset.mpr ⟨List.Subset.refl _, hsub⟩
    exact Digest.not_collides_of_nodup h ⟨x, hall hx, y, hall hy, hne, hxy⟩
  · exact hlength (by simpa [transfers] using congrArg List.length hsame)

-- A single leaf is hashed with itself, as two equal ones are.
theorem id_firstWith_twice (t : Transaction) : (firstWith [t]).id = (firstWith [t, t]).id := by
  simp [id, Header.id, Header.idBytes, firstWith, Draft.finalize, Header.rootOf, Merkle.root]

theorem hashed_firstWith_twice (t : Transaction) :
    (firstWith [t, t]).hashed ⊆ (firstWith [t]).hashed := by
  simp [hashed, leaves, firstWith, Draft.finalize, Header.idBytes, Header.rootOf, Merkle.root,
    Merkle.hashed, Merkle.paired, Merkle.levels, Merkle.pairs]

def idle : Transaction :=
  .unsigned ⟨7⟩ ⟨0⟩ [] []

theorem check_idle : idle.check view = .ok () :=
  rfl

theorem check_firstWith_idle (n : Nat) :
    (firstWith (List.replicate n idle)).check view = .ok () := by
  have hnone : inputsOf (List.replicate n idle) = [] :=
    List.flatMap_eq_nil_iff.mpr fun t ht => by rw [List.eq_of_mem_replicate ht]; rfl
  refine check_firstWith (fun t ht => ?_) (hnone ▸ List.nodup_nil)
  rw [List.eq_of_mem_replicate ht, check_idle]

theorem repeats_of_id_eq_idle :
    (firstWith [idle]).check ⟨∅, []⟩ = .ok () ∧ (firstWith [idle, idle]).check ⟨∅, []⟩ = .ok () ∧
      (firstWith [idle]).id = (firstWith [idle, idle]).id ∧
      (Digest.Collides ((firstWith [idle]).hashed ++ (firstWith [idle, idle]).hashed) ∨
        (firstWith [idle]).HasNodeOf (firstWith [idle, idle]) ∨
        (firstWith [idle, idle]).HasNodeOf (firstWith [idle]) ∨
        Miscounted ((firstWith [idle]).transactions ++ (firstWith [idle, idle]).transactions) ∨
        ∃ rest, (firstWith [idle]).Repeats (firstWith [idle, idle]) rest ∨
          (firstWith [idle, idle]).Repeats (firstWith [idle]) rest) := by
  have hone : (firstWith [idle]).check ⟨∅, []⟩ = .ok () := check_firstWith_idle 1
  have htwo : (firstWith [idle, idle]).check ⟨∅, []⟩ = .ok () := check_firstWith_idle 2
  have hid := id_firstWith_twice idle
  exact ⟨hone, htwo, hid, repeats_of_id_eq hone htwo hid⟩

section Nodes

variable {a b c d s t : Transaction} (hs : s.digestBytes = Merkle.nodeBytes a.digest b.digest)
  (ht : t.digestBytes = Merkle.nodeBytes c.digest d.digest)

include hs ht

-- Two leaves that are hashed as the nodes over four others are.
theorem root_eq_of_nodes : Merkle.root [a.digest, b.digest, c.digest, d.digest] =
    Merkle.root [s.digest, t.digest] := by
  simp [Merkle.root, Merkle.parents, Merkle.node, Transaction.digest, hs, ht]

theorem id_firstWith_of_nodes : (firstWith [a, b, c, d]).id = (firstWith [s, t]).id := by
  simp [id, Header.id, Header.idBytes, firstWith, Draft.finalize, Header.rootOf,
    root_eq_of_nodes hs ht]

theorem hashed_firstWith_of_nodes :
    (firstWith [s, t]).hashed ⊆ (firstWith [a, b, c, d]).hashed := by
  have hleft : s.digest = Merkle.node a.digest b.digest := congrArg Digest.of hs
  have hright : t.digest = Merkle.node c.digest d.digest := congrArg Digest.of ht
  simp [hashed, leaves, firstWith, Draft.finalize, Header.idBytes, Header.rootOf,
    root_eq_of_nodes hs ht, Merkle.hashed, Merkle.paired, Merkle.levels, Merkle.pairs,
    Merkle.parents, hs, ht, hleft, hright]

end Nodes

-- The digests of the first two, one after the other, read as the bytes of another transaction, and
-- so do those of the last two. The values were searched for until the counts came out right.
def quarter (i : UInt32) (value : UInt64) : Transaction :=
  .unsigned ⟨i + 10⟩ ⟨0⟩ [⟨⟨i + 1⟩, 0⟩] [⟨value, ⟨i + 1⟩⟩]

def quarters : List Transaction :=
  [quarter 0 4856941832, quarter 1 4477667273, quarter 2 8213184000, quarter 3 812335125]

def firstHalf : Transaction :=
  .unsigned ⟨1828903089⟩ ⟨0⟩
    [⟨⟨1491808865⟩, 912290560⟩, ⟨⟨2359523159⟩, 1642358910⟩, ⟨⟨3235451309⟩, 3324940388⟩,
      ⟨⟨91576082⟩, 2119913424⟩, ⟨⟨2689689887⟩, 428881802⟩]
    [⟨4086244573077575322, ⟨689960866⟩⟩]

def secondHalf : Transaction :=
  .unsigned ⟨1383146505⟩ ⟨0⟩
    [⟨⟨1186856819⟩, 2068885911⟩, ⟨⟨2069229260⟩, 1282954862⟩, ⟨⟨136048100⟩, 424162610⟩,
      ⟨⟨1534434195⟩, 3162296492⟩, ⟨⟨4095383916⟩, 4265786154⟩]
    [⟨6402947715393033379, ⟨1114780476⟩⟩]

-- What the inputs of a transaction have to hold: all that is paid at the first, nothing elsewhere.
def funding (t : Transaction) : List UnspentEntry :=
  t.inputs.zip (t.outputs ++ List.replicate t.inputs.length ⟨0, ⟨0⟩⟩)

def viewFor (transactions : List Transaction) : LedgerView where
  unspent := (transactions.flatMap funding).foldl (fun u e => u.insert e.1 e.2) ∅
  receivers := transactions.flatMap fun t => t.outputs.map (·.receiver)

def joint : LedgerView :=
  viewFor (quarters ++ [firstHalf, secondHalf])

theorem check_quarters : (firstWith quarters).check joint = .ok () :=
  check_firstWith (by decide +kernel) (by decide +kernel)

theorem check_halves : (firstWith [firstHalf, secondHalf]).check joint = .ok () :=
  check_firstWith (by decide +kernel) (by decide +kernel)

theorem digestBytes_firstHalf : firstHalf.digestBytes =
    Merkle.nodeBytes (quarter 0 4856941832).digest (quarter 1 4477667273).digest := by
  decide +kernel

theorem digestBytes_secondHalf : secondHalf.digestBytes =
    Merkle.nodeBytes (quarter 2 8213184000).digest (quarter 3 812335125).digest := by
  decide +kernel

theorem nodup_hashed_quarters : ((firstWith quarters).hashed.map Digest.of).Nodup := by
  simp only [hashed, leaves, firstWith, Draft.finalize, Header.idBytes, Header.rootOf, Merkle.root,
    Merkle.hashed, Merkle.paired, Merkle.levels, Merkle.pairs, Merkle.parents, quarters, List.map,
    List.flatMap, List.flatten]
  decide +kernel

theorem nodup_hashed_idle : ((firstWith [idle]).hashed.map Digest.of).Nodup := by
  simp only [hashed, leaves, firstWith, Draft.finalize, Header.idBytes, Header.rootOf, Merkle.root,
    Merkle.hashed, Merkle.paired, Merkle.levels, Merkle.pairs, List.map, List.flatMap,
    List.flatten]
  decide +kernel

-- The id does not fix the number of transactions that move nothing, and even where every
-- transaction spends something it does not fix what is moved.
theorem not_same_transfers_of_idle_or_nodes :
    ¬ (∀ (a b : Block) (view : LedgerView),
        (∀ t ∈ a.transactions ++ b.transactions, t.isCoinbase = true) →
        a.check view = .ok () → b.check view = .ok () → a.id = b.id →
        Digest.Collides (a.hashed ++ b.hashed) ∨ a.transfers = b.transfers) ∧
    ¬ (∀ (a b : Block) (view : LedgerView),
        (∀ t ∈ a.transactions ++ b.transactions, t.isCoinbase = false) →
        a.check view = .ok () → b.check view = .ok () → a.id = b.id →
        Digest.Collides (a.hashed ++ b.hashed) ∨ a.transfers = b.transfers) := by
  constructor
  · intro hall
    have hone : (firstWith [idle]).check ⟨∅, []⟩ = .ok () := check_firstWith_idle 1
    have htwo : (firstWith [idle, idle]).check ⟨∅, []⟩ = .ok () := check_firstWith_idle 2
    exact not_collides_or_same (hashed_firstWith_twice idle) nodup_hashed_idle (by decide)
      (hall _ _ _ (by decide) hone htwo (id_firstWith_twice idle))
  · intro hall
    have hid := id_firstWith_of_nodes digestBytes_firstHalf digestBytes_secondHalf
    have hsub := hashed_firstWith_of_nodes digestBytes_firstHalf digestBytes_secondHalf
    exact not_collides_or_same hsub nodup_hashed_quarters (by decide)
      (hall _ _ joint (by decide) check_quarters check_halves hid)

end Twins

end Block

end QuorumLedger
