import Mathlib.Data.List.Nodup
import QuorumLedger.Wallet
import QuorumLedger.Proofs.Ledger.Refusal
import QuorumLedger.Proofs.OneTime.Signing

namespace QuorumLedger

namespace UnspentSet

-- What entries hold, as an unbounded number.
def worth (entries : List UnspentEntry) : Nat :=
  (entries.map fun e => e.2.value.toNat).sum

@[simp]
theorem worth_nil : worth [] = 0 :=
  rfl

@[simp]
theorem worth_cons (e : UnspentEntry) (rest : List UnspentEntry) :
    worth (e :: rest) = e.2.value.toNat + worth rest := by
  simp [worth]

theorem worth_le_of_isPrefix {xs ys : List UnspentEntry} (h : xs <+: ys) : worth xs ≤ worth ys := by
  obtain ⟨zs, rfl⟩ := h
  simp [worth]

theorem toNat_saturatingAdd (a b : UInt64) :
    (saturatingAdd a b).toNat = min (a.toNat + b.toNat) (UInt64.size - 1) := by
  refine UInt64.toNat_ofNat_of_lt' ?_
  simp only [UInt64.size]
  omega

theorem nodup_refs (u : UnspentSet) : (u.entries.map (·.1)).Nodup := by
  refine List.pairwise_map.mpr (u.sorted.imp fun hlt hsame => ?_)
  rw [hsame] at hlt
  exact Nat.lt_irrefl _ hlt

theorem get?_of_mem {u : UnspentSet} {e : UnspentEntry} (h : e ∈ u.entries) :
    u.get? e.1 = some e.2 := by
  cases hget : u.get? e.1 with
  | none => exact absurd hget (find_ne_none_of_mem h)
  | some o =>
      have hsame : (e.1, o) = e :=
        List.inj_on_of_nodup_map u.nodup_refs (mem_of_find hget) h rfl
      rw [← hsame]

theorem mem_ownedBy {u : UnspentSet} {w : WalletId} {e : UnspentEntry} :
    e ∈ (u.ownedBy w).entries ↔ e ∈ u.entries ∧ e.2.receiver = w := by
  simp [ownedBy, filter]

end UnspentSet

namespace Wallet

open UnspentSet (worth)

-- A front of what a wallet owns that holds an amount only with its last entry.
structure Covers (spent owned : List UnspentEntry) (amount : Nat) : Prop where
  front : spent <+: owned
  needed : worth spent.dropLast < amount
  enough : amount ≤ worth spent

theorem Covers.ne_nil {spent owned : List UnspentEntry} {amount : Nat}
    (h : Covers spent owned amount) : spent ≠ [] := by
  rintro rfl
  exact absurd h.needed (Nat.not_lt_of_le h.enough)

theorem isPrefix_dropLast_of_ne {α : Type} {xs ys : List α} (h : xs <+: ys) (hne : xs ≠ ys) :
    xs <+: ys.dropLast := by
  obtain ⟨rest, rfl⟩ := h
  have hrest : rest ≠ [] := fun h => hne (by rw [h, List.append_nil])
  rw [List.dropLast_append_of_ne_nil hrest]
  exact List.prefix_append _ _

-- A proper front of one that covers the amount ends before the last entry, so it falls short.
theorem Covers.eq_of_isPrefix {xs ys owned : List UnspentEntry} {amount : Nat}
    (hx : Covers xs owned amount) (hy : Covers ys owned amount) (h : xs <+: ys) : xs = ys := by
  by_contra hne
  have hgrows := UnspentSet.worth_le_of_isPrefix (isPrefix_dropLast_of_ne h hne)
  exact absurd (Nat.lt_of_le_of_lt hgrows hy.needed) (Nat.not_lt_of_le hx.enough)

theorem Covers.unique {xs ys owned : List UnspentEntry} {amount : Nat}
    (hx : Covers xs owned amount) (hy : Covers ys owned amount) : xs = ys := by
  rcases List.prefix_or_prefix_of_prefix hx.front hy.front with h | h
  · exact hx.eq_of_isPrefix hy h
  · exact (hy.eq_of_isPrefix hx h).symm

-- Nothing is gathered once there is enough, and no earlier sum than the last can be held back at
-- the largest value.
theorem exists_taken_gather (amount gathered : UInt64) (entries : List UnspentEntry) :
    ∃ taken, taken <+: entries ∧ (gather amount gathered entries).1 = taken.map (·.1) ∧
      (gather amount gathered entries).2.toNat =
        min (gathered.toNat + worth taken) (UInt64.size - 1) ∧
      (taken ≠ [] → gathered.toNat + worth taken.dropLast < amount.toNat) ∧
      (amount.toNat ≤ gathered.toNat + worth taken ∨ taken = entries) := by
  have hbound := gathered.toNat_lt
  have hheld : gathered.toNat = min (gathered.toNat + worth []) (UInt64.size - 1) := by
    simp only [UnspentSet.worth_nil, UInt64.size]
    omega
  induction entries generalizing gathered with
  | nil => exact ⟨[], List.prefix_rfl, rfl, hheld, fun h => absurd rfl h, .inr rfl⟩
  | cons e rest ih =>
      by_cases hreached : amount ≤ gathered
      · rw [gather, if_pos hreached]
        refine ⟨[], List.nil_prefix, rfl, hheld, fun h => absurd rfl h, .inl ?_⟩
        exact UInt64.le_iff_toNat_le.mp hreached
      · have hshort : gathered.toNat < amount.toNat :=
          UInt64.lt_iff_toNat_lt.mp (UInt64.not_le.mp hreached)
        have hadd := UnspentSet.toNat_saturatingAdd gathered e.2.value
        obtain ⟨taken, hfront, hinputs, hsum, hneeded, hend⟩ :=
          ih (UnspentSet.saturatingAdd gathered e.2.value) (UInt64.toNat_lt _)
            (by simp only [UnspentSet.worth_nil, UInt64.size] at hadd ⊢; omega)
        have hamount := amount.toNat_lt
        rw [gather, if_neg hreached]
        rw [hadd] at hsum hneeded hend
        refine ⟨e :: taken, List.cons_prefix_cons.mpr ⟨rfl, hfront⟩, ?_, ?_, fun _ => ?_, ?_⟩
        · rw [List.map_cons, ← hinputs]
        · rw [UnspentSet.worth_cons]
          simp only [UInt64.size] at hsum ⊢
          omega
        · cases taken with
          | nil => simpa using hshort
          | cons e' taken =>
              have hlast := hneeded (List.cons_ne_nil _ _)
              rw [List.dropLast_cons_cons, UnspentSet.worth_cons]
              simp only [UInt64.size] at hlast
              omega
        · refine hend.imp (fun henough => ?_) (congrArg (e :: ·))
          rw [UnspentSet.worth_cons]
          omega

-- What goes back to the payer, unless nothing is left over.
def change (payer : WalletId) (rest : Nat) : List Output :=
  if 0 < rest then [⟨UInt64.ofNat rest, payer⟩] else []

theorem valueOf_change (payer : WalletId) {rest : Nat} (h : rest < UInt64.size) :
    valueOf (change payer rest) = rest := by
  unfold change
  split
  · simpa [valueOf] using UInt64.toNat_ofNat_of_lt' h
  · simp [valueOf]
    omega

theorem receiver_of_mem_change {payer : WalletId} {rest : Nat} {o : Output}
    (h : o ∈ change payer rest) : o.receiver = payer := by
  unfold change at h
  split at h
  · rw [List.mem_singleton.mp h]
  · cases h

theorem change_sub (payer : WalletId) (gathered amount : UInt64) :
    (if amount < gathered then [⟨gathered - amount, payer⟩] else []) =
      change payer (gathered.toNat - amount.toNat) := by
  unfold change
  by_cases hless : amount < gathered
  · have hnat : amount.toNat < gathered.toNat := UInt64.lt_iff_toNat_lt.mp hless
    have hsub : UInt64.ofNat (gathered.toNat - amount.toNat) = gathered - amount := by
      rw [← UInt64.toNat_sub_of_le _ _ (UInt64.le_iff_toNat_le.mpr (Nat.le_of_lt hnat)),
        UInt64.ofNat_toNat]
    rw [if_pos hless, if_pos (Nat.sub_pos_of_lt hnat), hsub]
  · have hnat : ¬ amount.toNat < gathered.toNat := fun h => hless (UInt64.lt_iff_toNat_lt.mpr h)
    rw [if_neg hless, if_neg fun h => hnat (Nat.lt_of_sub_pos h)]

theorem payment?_eq (payer : WalletId) (u : UnspentSet) (tx : TxId) (payee : WalletId)
    (amount : UInt64) :
    let owned := (u.ownedBy payer).entries
    payment? payer u tx payee amount =
      if (gather amount 0 owned).2 < amount || (gather amount 0 owned).1.isEmpty then none
      else some (Transaction.unsigned tx payer (gather amount 0 owned).1
        (⟨amount, payee⟩ ::
          change payer ((gather amount 0 owned).2.toNat - amount.toNat))) := by
  intro owned
  rw [← change_sub]
  rfl

theorem payment?_cases (payer : WalletId) (u : UnspentSet) (tx : TxId) (payee : WalletId)
    {amount : UInt64} (hamount : 0 < amount) :
    ((u.ownedBy payer).total < amount.toNat ∧ payment? payer u tx payee amount = none) ∨
      ∃ spent, Covers spent (u.ownedBy payer).entries amount.toNat ∧
        payment? payer u tx payee amount =
          some (Transaction.unsigned tx payer (spent.map (·.1)) (⟨amount, payee⟩ ::
            change payer (min (worth spent) (UInt64.size - 1) - amount.toNat))) := by
  have hpos : 0 < amount.toNat := UInt64.lt_iff_toNat_lt.mp hamount
  have hbound := amount.toNat_lt
  obtain ⟨taken, hfront, hinputs, hsum, hneeded, hend⟩ :=
    exists_taken_gather amount 0 (u.ownedBy payer).entries
  rw [UInt64.toNat_zero, Nat.zero_add] at hsum hneeded hend
  have hreached : (gather amount 0 (u.ownedBy payer).entries).2 < amount ↔
      worth taken < amount.toNat := by
    rw [UInt64.lt_iff_toNat_lt, hsum]
    simp only [UInt64.size]
    omega
  rw [payment?_eq, hinputs, hsum]
  by_cases henough : amount.toNat ≤ worth taken
  · have hspends : taken ≠ [] := by
      rintro rfl
      exact absurd henough (Nat.not_le_of_lt hpos)
    have hcovered := fun h => Nat.not_lt_of_le henough (hreached.mp h)
    refine .inr ⟨taken, ⟨hfront, hneeded hspends, henough⟩, if_neg ?_⟩
    simpa [hspends] using hcovered
  · have hshort : worth taken < amount.toNat := Nat.lt_of_not_le henough
    obtain rfl := hend.resolve_left henough
    refine .inl ⟨hshort, if_pos ?_⟩
    simp [hreached.mpr hshort]

section Check

variable {u : UnspentSet} {payer payee : WalletId} {receivers : List WalletId} {t : Transaction}
  {spent : List UnspentEntry} {amount : UInt64}

theorem live_of_covers (h : Covers spent (u.ownedBy payer).entries amount.toNat) :
    ∀ e ∈ spent, u.get? e.1 = some e.2 ∧ e.2.receiver = payer := by
  intro e he
  obtain ⟨hlive, howned⟩ := UnspentSet.mem_ownedBy.mp (h.front.subset he)
  exact ⟨UnspentSet.get?_of_mem hlive, howned⟩

theorem nodup_of_covers (h : Covers spent (u.ownedBy payer).entries amount.toNat) :
    (spent.map (·.1)).Nodup :=
  (h.front.map _).sublist.nodup (u.ownedBy payer).nodup_refs

-- The wallet and the check agree on what the inputs hold for as long as it fits 64 bits.
theorem check_of_covers (h : Covers spent (u.ownedBy payer).entries amount.toNat)
    (hinputs : t.inputs = spent.map (·.1))
    (houtputs : t.outputs = ⟨amount, payee⟩ ::
      change payer (min (worth spent) (UInt64.size - 1) - amount.toNat))
    (hpayer : payer ∈ receivers) (hpayee : payee ∈ receivers) :
    t.check ⟨u, receivers⟩ =
      if worth spent < UInt64.size then .ok () else .error (.valueOverflow t.id) := by
  have hlive : ∀ r ∈ t.inputs, u.contains r = true := by
    rw [hinputs]
    exact List.forall_mem_map.mpr fun e he =>
      UnspentSet.contains_iff.mpr ⟨e.2, (live_of_covers h e he).1⟩
  have hvalue : (t.inputs.map u.valueAt).sum = worth spent := by
    rw [hinputs, List.map_map]
    refine congrArg List.sum (List.map_congr_left fun e he => ?_)
    exact UnspentSet.valueAt_of_get? (live_of_covers h e he).1
  by_cases hfits : worth spent < UInt64.size
  · rw [if_pos hfits]
    have henough := h.enough
    have hrest : min (worth spent) (UInt64.size - 1) = worth spent := by
      simp only [UInt64.size] at hfits ⊢
      omega
    rw [hrest] at houtputs
    have hpays : valueOf t.outputs = worth spent := by
      have hchange := valueOf_change payer
        (Nat.lt_of_le_of_lt (Nat.sub_le _ amount.toNat) hfits)
      rw [houtputs]
      simp only [valueOf, List.map_cons, List.sum_cons] at hchange ⊢
      omega
    refine Transaction.check_eq_ok_iff_sound.mpr
      (.inr ⟨?_, hlive, hvalue.trans hpays.symm, hpays ▸ hfits, ?_⟩)
    · simpa [hinputs] using h.ne_nil
    · rw [houtputs]
      refine List.forall_mem_cons.mpr ⟨hpayee, fun o ho => ?_⟩
      rwa [receiver_of_mem_change ho]
  · rw [if_neg hfits]
    refine Transaction.check_of_refused (.inputOverflow (List.append_nil _).symm hlive ?_)
    rw [hvalue]
    exact Nat.le_of_not_lt hfits

end Check

theorem transfer_of_rotate {w : Wallet} {key : PrivateKey} {nextKey : PublicKey}
    (hkeys : w.signer.rotate.1 = .ok (key, nextKey)) (u : UnspentSet) (tx : TxId)
    (payee : WalletId) (amount : UInt64) :
    (w.transfer u tx payee amount).1 =
      .ok ((payment? w.id u tx payee amount).map (·.signBy key nextKey)) := by
  unfold transfer
  cases payment? w.id u tx payee amount with
  | none => rfl
  | some t =>
      cases hrotate : w.signer.rotate with
      | mk result signer =>
          rw [hrotate] at hkeys
          simp only [Transaction.signWith, hrotate, show result = .ok (key, nextKey) from hkeys,
            Option.map_some]

-- A wallet that can sign pays whatever it can cover, from the shortest front of its outputs. The
-- payment passes the check as long as what it spends fits 64 bits; of a larger sum what exceeds the
-- largest value does not go back to the wallet, and the check refuses the payment.
theorem transfer_of_keys {w : Wallet} {key : PrivateKey} {nextKey : PublicKey} {amount : UInt64}
    (hkeys : w.signer.rotate.1 = .ok (key, nextKey)) (hamount : 0 < amount) (u : UnspentSet)
    (tx : TxId) (payee : WalletId) :
    let owned := u.ownedBy w.id
    ∃ result, (w.transfer u tx payee amount).1 = .ok result ∧
      (result.isSome = true ↔ amount.toNat ≤ owned.total) ∧
      ∀ t ∈ result, ∃ spent, Covers spent owned.entries amount.toNat ∧
        t = (Transaction.unsigned tx w.id (spent.map (·.1)) (⟨amount, payee⟩ ::
          change w.id (min (worth spent) (UInt64.size - 1) - amount.toNat))).signBy key nextKey ∧
        t.inputs.Nodup ∧ (∀ e ∈ spent, u.get? e.1 = some e.2 ∧ e.2.receiver = w.id) ∧
        ∀ receivers, w.id ∈ receivers → payee ∈ receivers →
          t.check ⟨u, receivers⟩ =
            if worth spent < UInt64.size then .ok () else .error (.valueOverflow tx) := by
  intro owned
  rw [transfer_of_rotate hkeys]
  refine ⟨_, rfl, ?_⟩
  rcases payment?_cases w.id u tx payee hamount with ⟨hshort, hnone⟩ | ⟨spent, hcovers, hsome⟩
  · rw [hnone]
    refine ⟨iff_of_false (by simp) (Nat.not_le_of_lt hshort), fun t ht => ?_⟩
    cases ht
  · rw [hsome]
    have henough : amount.toNat ≤ owned.total :=
      Nat.le_trans hcovers.enough (UnspentSet.worth_le_of_isPrefix hcovers.front)
    refine ⟨iff_of_true rfl henough, fun t ht => ?_⟩
    obtain rfl := Option.some.inj ht
    refine ⟨spent, hcovers, rfl, nodup_of_covers hcovers, live_of_covers hcovers, ?_⟩
    intro receivers hpayer hpayee
    exact check_of_covers hcovers rfl rfl hpayer hpayee

def rich : Wallet :=
  ⟨⟨0⟩, .steady .blank⟩

-- The first two outputs together hold more than fits 64 bits, the last one alone what is paid.
def hoard : UnspentSet :=
  (((∅ : UnspentSet).insert ⟨⟨1⟩, 0⟩ ⟨10, ⟨0⟩⟩).insert ⟨⟨2⟩, 0⟩ ⟨18446744073709551610, ⟨0⟩⟩).insert
    ⟨⟨3⟩, 0⟩ ⟨18446744073709551615, ⟨0⟩⟩

theorem transfer_of_keys_rich :
    0 < (18446744073709551615 : UInt64) ∧
      rich.signer.rotate.1 = .ok (KeyPair.blank.privateKey, KeyPair.blank.publicKey) ∧
      ∃ t, (rich.transfer hoard ⟨4⟩ ⟨1⟩ 18446744073709551615).1 = .ok (some t) ∧
        t.inputs = [⟨⟨1⟩, 0⟩, ⟨⟨2⟩, 0⟩] ∧ t.outputs = [⟨18446744073709551615, ⟨1⟩⟩] ∧
        t.check ⟨hoard, [⟨0⟩, ⟨1⟩]⟩ = .error (.valueOverflow ⟨4⟩) := by
  have hamount : 0 < (18446744073709551615 : UInt64) := by decide
  have hkeys : rich.signer.rotate.1 = .ok (KeyPair.blank.privateKey, KeyPair.blank.publicKey) :=
    rfl
  obtain ⟨result, hresult, hsome, hpaid⟩ := transfer_of_keys hkeys hamount hoard ⟨4⟩ ⟨1⟩
  obtain ⟨t, rfl⟩ := Option.isSome_iff_exists.mp (hsome.mpr (by decide))
  obtain ⟨spent, hcovers, ht, -, -, hcheck⟩ := hpaid t rfl
  have htwo : Covers (hoard.entries.take 2) (hoard.ownedBy rich.id).entries
      (18446744073709551615 : UInt64).toNat := ⟨by decide, by decide, by decide⟩
  obtain rfl := hcovers.unique htwo
  refine ⟨hamount, hkeys, t, hresult, ?_, ?_, ?_⟩
  · rw [ht]
    decide
  · rw [ht]
    decide
  · rw [hcheck _ (by decide) (by decide)]
    decide

end Wallet

end QuorumLedger
