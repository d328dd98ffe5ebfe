import QuorumLedger.Proofs.Random.Draws
import QuorumLedger.Proofs.Wallet.Payment

namespace QuorumLedger

open UnspentSet (worth)

namespace Wallet

theorem payment_of_transfer {w : Wallet} {u : UnspentSet} {tx : TxId} {payee : WalletId}
    {amount : UInt64} {t : Transaction} (h : (w.transfer u tx payee amount).1 = .ok (some t)) :
    ∃ unsigned key nextKey, payment? w.id u tx payee amount = some unsigned ∧
      t = unsigned.signBy key nextKey := by
  cases hkeys : w.signer.rotate.1 with
  | ok keys =>
      rw [transfer_of_rotate hkeys] at h
      obtain ⟨unsigned, hpayment, rfl⟩ := Option.map_eq_some_iff.mp (Except.ok.inj h)
      exact ⟨unsigned, keys.1, keys.2, hpayment, rfl⟩
  | error e =>
      unfold transfer at h
      cases hpayment : payment? w.id u tx payee amount with
      | none => simp [hpayment] at h
      | some unsigned =>
          rcases hrotate : w.signer.rotate with ⟨result, signer⟩
          rw [hrotate] at hkeys
          simp only at hkeys
          simp [hpayment, Transaction.signWith, hrotate, hkeys] at h

-- Owned outputs that a transaction spends are in front of all that its sender owns, and what it
-- pays comes before the change.
structure Pays (u : UnspentSet) (payee : WalletId) (t : Transaction) : Prop where
  inputs : ∃ spent amount, Covers spent (u.ownedBy t.sender).entries amount ∧
    t.inputs = spent.map (·.1)
  output : ∃ amount, t.outputs.head? = some ⟨amount, payee⟩

theorem pays_of_transfer {w : Wallet} {u : UnspentSet} {tx : TxId} {payee : WalletId}
    {amount : UInt64} (hamount : 0 < amount) {t : Transaction}
    (h : (w.transfer u tx payee amount).1 = .ok (some t)) : t.sender = w.id ∧ Pays u payee t := by
  obtain ⟨unsigned, key, nextKey, hpayment, rfl⟩ := payment_of_transfer h
  rcases payment?_cases w.id u tx payee hamount with ⟨-, hnone⟩ | ⟨spent, hcovers, hsome⟩
  · rw [hnone] at hpayment
    cases hpayment
  · rw [hsome] at hpayment
    obtain rfl := Option.some.inj hpayment
    exact ⟨rfl, ⟨spent, amount.toNat, hcovers, rfl⟩, amount, rfl⟩

-- Every payment starts with the first output that its sender owns, and no output has two owners.
theorem Pays.disjoint_iff {u : UnspentSet} {payee payee' : WalletId} {t t' : Transaction}
    (h : Pays u payee t) (h' : Pays u payee' t') :
    t.inputs.Disjoint t'.inputs ↔ t.sender ≠ t'.sender := by
  obtain ⟨spent, amount, hcovers, hinputs⟩ := h.inputs
  obtain ⟨spent', amount', hcovers', hinputs'⟩ := h'.inputs
  rw [hinputs, hinputs']
  constructor
  · intro hdisjoint hsame
    rw [← hsame] at hcovers'
    obtain ⟨e, rest, hspent⟩ := List.exists_cons_of_ne_nil hcovers.ne_nil
    obtain ⟨e', rest', hspent'⟩ := List.exists_cons_of_ne_nil hcovers'.ne_nil
    obtain ⟨later, hfront⟩ := hcovers.front
    obtain ⟨later', hfront'⟩ := hcovers'.front
    rw [hspent, List.cons_append] at hfront
    rw [hspent', List.cons_append] at hfront'
    obtain rfl : e = e' := (List.cons.inj (hfront.trans hfront'.symm)).1
    exact hdisjoint (a := e.1) (by simp [hspent]) (by simp [hspent'])
  · intro hdiffer r hr hr'
    obtain ⟨e, he, rfl⟩ := List.mem_map.mp hr
    obtain ⟨e', he', hsame⟩ := List.mem_map.mp hr'
    obtain ⟨hlive, howner⟩ := UnspentSet.mem_ownedBy.mp (hcovers.front.subset he)
    obtain ⟨hlive', howner'⟩ := UnspentSet.mem_ownedBy.mp (hcovers'.front.subset he')
    have hentry : e' = e := List.inj_on_of_nodup_map u.nodup_refs hlive' hlive hsame
    exact hdiffer (by rw [← howner, ← howner', hentry])

end Wallet

namespace WalletPool

theorem pays_of_transfer {p : WalletPool} {u : UnspentSet} {payer payee : WalletId}
    {amount : UInt64} (hamount : 0 < amount) {t : Transaction}
    (h : (p.transfer u payer payee amount).1 = some t) :
    t.sender = payer ∧ Wallet.Pays u payee t := by
  unfold transfer at h
  cases hfind : find? { p with nextTx := ⟨p.nextTx.value + 1⟩ } payer with
  | none => simp [hfind] at h
  | some w =>
      have hid : w.id = payer := by simpa using List.find?_some hfind
      have hresult : (w.transfer u p.nextTx payee amount).1 = .ok (some t) := by
        cases hpaid : (w.transfer u p.nextTx payee amount).1 <;>
          simp_all [Except.toOption]
      exact hid ▸ Wallet.pays_of_transfer hamount hresult

end WalletPool

namespace Workload

open WordSource (below64 below64_lt below_mono)

variable {σ : Type} [WordSource σ] {ids : List WalletId} {payer : WalletId} {s s' : σ}

-- What a stream draws below a bound, one number after the other.
inductive Draws (bound : Nat) : σ → List Nat → σ → Prop
  | none (s : σ) : Draws bound s [] s
  | more {s s' s'' : σ} {i attempts : Nat} {drawn : List Nat}
      (draw : below64 bound attempts s = some (i, s')) (rest : Draws bound s' drawn s'') :
      Draws bound s (i :: drawn) s''

-- Whether a stream comes to a wallet other than the payer.
def Offers (ids : List WalletId) (payer : WalletId) (s : σ) : Prop :=
  ∃ drawn s', Draws ids.length s drawn s' ∧ ∃ i ∈ drawn, ∃ id, ids[i]? = some id ∧ id ≠ payer

-- Whether the search for a payee comes to an end, however many attempts it takes.
def Ends (ids : List WalletId) (payer : WalletId) (s : σ) : Prop :=
  ∃ least, ∀ attempts, least ≤ attempts →
    (drawPayee ids.toArray payer attempts attempts s).isSome = true

theorem drawPayee_succ {i attempts draws : Nat} {id : WalletId}
    (hdraw : below64 ids.length attempts s = some (i, s')) (hid : ids[i]? = some id) :
    drawPayee ids.toArray payer attempts (draws + 1) s =
      if id = payer then drawPayee ids.toArray payer attempts draws s' else some (id, s') := by
  simp only [drawPayee, List.size_toArray, hdraw, List.getElem?_toArray, hid]

theorem payee_of_drawPayee {attempts draws : Nat} {payee : WalletId}
    (h : drawPayee ids.toArray payer attempts draws s = some (payee, s')) :
    payee ∈ ids ∧ payee ≠ payer ∧
      ∃ drawn, Draws ids.length s drawn s' ∧ ∃ i ∈ drawn, ids[i]? = some payee := by
  induction draws generalizing s with
  | zero => cases h
  | succ draws ih =>
      cases hdraw : below64 ids.length attempts s with
      | none => simp [drawPayee, hdraw] at h
      | some r =>
          obtain ⟨i, rest⟩ := r
          cases hid : ids[i]? with
          | none => simp [drawPayee, hdraw, hid] at h
          | some id =>
              rw [drawPayee_succ hdraw hid] at h
              by_cases hsame : id = payer
              · rw [if_pos hsame] at h
                obtain ⟨hmem, hother, drawn, hdrawn, j, hj, hpayee⟩ := ih h
                exact ⟨hmem, hother, i :: drawn, .more hdraw hdrawn, j,
                  List.mem_cons_of_mem _ hj, hpayee⟩
              · rw [if_neg hsame] at h
                cases h
                exact ⟨List.mem_of_getElem? hid, hsame, [i], .more hdraw (.none _), i,
                  List.mem_singleton.mpr rfl, hid⟩

-- The payer is passed over as often as it is drawn, and a stream that draws anyone else ends that.
theorem Draws.isSome_drawPayee {drawn : List Nat} (h : Draws ids.length s drawn s')
    (hsize : 0 < ids.length) (hother : ∃ i ∈ drawn, ∃ id, ids[i]? = some id ∧ id ≠ payer) :
    ∃ least, ∀ attempts draws, least ≤ attempts → least ≤ draws →
      (drawPayee ids.toArray payer attempts draws s).isSome = true := by
  generalize hbound : ids.length = bound at h
  induction h with
  | none s => simp at hother
  | @more s s' s'' i attempts drawn hdraw hrest ih =>
      subst hbound
      have hi := below64_lt hsize hdraw
      obtain ⟨id, hid⟩ : ∃ id, ids[i]? = some id := ⟨ids[i], List.getElem?_eq_getElem hi⟩
      by_cases hsame : id = payer
      · have hlater : ∃ i ∈ drawn, ∃ id, ids[i]? = some id ∧ id ≠ payer := by
          obtain ⟨j, hj, id', hid', hne⟩ := hother
          rcases List.mem_cons.mp hj with rfl | hj
          · rw [hid] at hid'
            exact absurd (Option.some.inj hid' ▸ hsame) hne
          · exact ⟨j, hj, id', hid', hne⟩
        obtain ⟨least, hleast⟩ := ih hlater
        refine ⟨max attempts (least + 1), fun more draws hmore hdraws => ?_⟩
        obtain ⟨draws, rfl⟩ := Nat.exists_eq_add_of_lt (show 0 < draws by omega)
        rw [Nat.zero_add, drawPayee_succ (below_mono (by omega) hdraw) hid, if_pos hsame]
        exact hleast more draws (by omega) (by omega)
      · refine ⟨max attempts 1, fun more draws hmore hdraws => ?_⟩
        obtain ⟨draws, rfl⟩ := Nat.exists_eq_add_of_lt (show 0 < draws by omega)
        rw [Nat.zero_add, drawPayee_succ (below_mono (by omega) hdraw) hid, if_neg hsame]
        rfl

theorem ends_iff_offers (hpayer : payer ∈ ids) : Ends ids payer s ↔ Offers ids payer s := by
  constructor
  · rintro ⟨least, hleast⟩
    obtain ⟨⟨payee, s'⟩, hpayee⟩ := Option.isSome_iff_exists.mp (hleast least (Nat.le_refl least))
    obtain ⟨-, hother, drawn, hdrawn, i, hi, hid⟩ := payee_of_drawPayee hpayee
    exact ⟨drawn, s', hdrawn, i, hi, payee, hid, hother⟩
  · rintro ⟨drawn, s', hdrawn, hother⟩
    obtain ⟨least, hleast⟩ := hdrawn.isSome_drawPayee (List.length_pos_of_mem hpayer) hother
    exact ⟨least, fun attempts hattempts => hleast attempts attempts hattempts hattempts⟩

-- Any other wallet that is listed is drawn first by some stream.
theorem exists_offers (hlength : ids.length ≤ UInt64.size) {id : WalletId} (hid : id ∈ ids)
    (hne : id ≠ payer) : ∃ words : List UInt32, Offers ids payer words := by
  obtain ⟨i, hi, hget⟩ := List.getElem_of_mem hid
  obtain ⟨words, hwords⟩ := WordSource.exists_below64 hi hlength
  exact ⟨words, [i], [], .more hwords (.none []), i, List.mem_singleton.mpr rfl, id,
    hget ▸ List.getElem?_eq_getElem hi, hne⟩

theorem length_ids_le (h : ids.Nodup) : ids.length ≤ UInt32.size := by
  have hinj : Function.Injective fun id : WalletId => id.value.toNat :=
    fun _ _ hab => congrArg WalletId.mk (UInt32.toNat_inj.mp hab)
  exact length_le_of_nodup hinj (fun id => id.value.toNat_lt) h

theorem exists_other (h : ids.Nodup) (hlength : 2 ≤ ids.length) (payer : WalletId) :
    ∃ id ∈ ids, id ≠ payer := by
  match ids, h, hlength with
  | a :: b :: rest, h, _ =>
    by_cases ha : a = payer
    · have hab : b ≠ a := fun hb => (List.nodup_cons.mp h).1 (hb ▸ List.mem_cons_self)
      exact ⟨b, by simp, ha ▸ hab⟩
    · exact ⟨a, by simp, ha⟩

variable {w : Workload} {u : UnspentSet}

theorem exists_of_transfersFrom {attempts : Nat} {rest : List WalletId} {p p' : WalletPool}
    {txs : List Transaction}
    (h : w.transfersFrom u ids.toArray attempts (payer :: rest) p s = some (txs, p', s')) :
    ∃ payee s₁ amount s₂ later, drawPayee ids.toArray payer attempts attempts s = some (payee, s₁) ∧
      WordSource.between64 1 w.maxAmount.toNat attempts s₁ = some (amount, s₂) ∧
      w.transfersFrom u ids.toArray attempts rest
        (p.transfer u payer payee (UInt64.ofNat amount)).2 s₂ = some (later, p', s') ∧
      txs = (p.transfer u payer payee (UInt64.ofNat amount)).1.toList ++ later := by
  obtain ⟨⟨payee, s₁⟩, hpayee, h⟩ := Option.bind_eq_some_iff.mp h
  obtain ⟨⟨amount, s₂⟩, hamount, h⟩ := Option.bind_eq_some_iff.mp h
  obtain ⟨⟨later, p₃, s₃⟩, hlater, h⟩ := Option.bind_eq_some_iff.mp h
  cases h
  exact ⟨payee, s₁, amount, s₂, later, hpayee, hamount, hlater, rfl⟩

-- A drawn amount is never nothing, and it is not cut when it is taken as a number of 64 bits.
theorem pos_of_between64 {most : UInt64} {amount attempts : Nat}
    (h : WordSource.between64 1 most.toNat attempts s = some (amount, s')) :
    0 < UInt64.ofNat amount := by
  obtain ⟨hleast, hmost⟩ := WordSource.between64_mem most.toNat_lt h
  have hlimit := most.toNat_lt
  have hfits : amount < UInt64.size := by
    simp only [UInt64.size]
    omega
  exact UInt64.lt_iff_toNat_lt.mpr (by rwa [UInt64.toNat_ofNat_of_lt' hfits])

theorem pays_of_transfersFrom {attempts : Nat} {senders : List WalletId} {p p' : WalletPool}
    {txs : List Transaction}
    (h : w.transfersFrom u ids.toArray attempts senders p s = some (txs, p', s')) :
    (txs.map (·.sender)).Sublist senders ∧
      ∀ t ∈ txs, ∃ payee ∈ ids, payee ≠ t.sender ∧ Wallet.Pays u payee t := by
  induction senders generalizing p s txs with
  | nil =>
      cases h
      exact ⟨.slnil, by simp⟩
  | cons payer rest ih =>
      obtain ⟨payee, s₁, amount, s₂, later, hpayee, hamount, hlater, rfl⟩ :=
        exists_of_transfersFrom h
      obtain ⟨hsenders, hpays⟩ := ih hlater
      cases htx : (p.transfer u payer payee (UInt64.ofNat amount)).1 with
      | none => exact ⟨hsenders.cons _, hpays⟩
      | some t =>
          obtain ⟨hlisted, hother, -⟩ := payee_of_drawPayee hpayee
          obtain ⟨hsender, ht⟩ := WalletPool.pays_of_transfer (pos_of_between64 hamount) htx
          refine ⟨?_, List.forall_mem_cons.mpr ⟨⟨payee, hlisted, hsender ▸ hother, ht⟩, hpays⟩⟩
          change (t.sender :: later.map (·.sender)).Sublist (payer :: rest)
          rw [hsender]
          exact hsenders.cons_cons _

theorem pays_of_batch {count attempts : Nat} {p p' : WalletPool} {txs : List Transaction}
    (h : w.batch p u count attempts s = some (txs, p', s')) :
    txs.length ≤ count ∧ (txs.map (·.sender)).Subperm p.ids ∧
      ∀ t ∈ txs, ∃ payee ∈ p.ids, payee ≠ t.sender ∧ Wallet.Pays u payee t := by
  unfold batch at h
  split at h
  · cases h
    exact ⟨Nat.zero_le _, List.nil_subperm, by simp⟩
  · obtain ⟨⟨senders, rest⟩, hshuffled, h⟩ := Option.bind_eq_some_iff.mp h
    obtain ⟨hsenders, hpays⟩ := pays_of_transfersFrom h
    refine ⟨?_, ?_, hpays⟩
    · have hlength := hsenders.length_le
      rw [List.length_map, List.length_take] at hlength
      exact Nat.le_trans hlength (Nat.min_le_left _ _)
    · have hperm := WordSource.perm_shuffle hshuffled
      exact (hsenders.trans (List.take_sublist _ _)).subperm.trans hperm.subperm

-- Nothing that makes or reads a list of wallets looks for repeats in it. A wallet that is listed
-- more than once may pay more than once in a batch, each time from the same outputs, and one that
-- is listed alone has nobody to pay.
theorem disjoint_iff_of_batch (w : Workload) (p : WalletPool) (u : UnspentSet)
    (count attempts : Nat) (s : σ) :
    (∀ payer ∈ p.ids, Ends p.ids payer s ↔ Offers p.ids payer s) ∧
      (∀ txs p' s', w.batch p u count attempts s = some (txs, p', s') →
        txs.length ≤ count ∧ (txs.map (·.sender)).Subperm p.ids ∧
          (∀ t ∈ txs, ∃ payee ∈ p.ids, payee ≠ t.sender ∧
            ∃ amount, t.outputs.head? = some ⟨amount, payee⟩) ∧
          txs.Pairwise fun t t' => t.inputs.Disjoint t'.inputs ↔ t.sender ≠ t'.sender) ∧
      (p.ids.Nodup →
        (2 ≤ p.ids.length → ∀ payer ∈ p.ids, ∃ words : List UInt32, Offers p.ids payer words) ∧
          ∀ txs p' s', w.batch p u count attempts s = some (txs, p', s') →
            (txs.map (·.sender)).Nodup ∧
              txs.Pairwise fun t t' => t.inputs.Disjoint t'.inputs) := by
  have hexact : ∀ txs p' s', w.batch p u count attempts s = some (txs, p', s') →
      txs.Pairwise fun t t' => t.inputs.Disjoint t'.inputs ↔ t.sender ≠ t'.sender := by
    intro txs p' s' hbatch
    obtain ⟨-, -, hpays⟩ := pays_of_batch hbatch
    refine List.pairwise_of_forall_mem_list fun t ht t' ht' => ?_
    obtain ⟨_, -, -, hpaid⟩ := hpays t ht
    obtain ⟨_, -, -, hpaid'⟩ := hpays t' ht'
    exact hpaid.disjoint_iff hpaid'
  refine ⟨fun payer hpayer => ends_iff_offers hpayer, fun txs p' s' hbatch => ?_,
    fun hnodup => ⟨fun hlength payer _ => ?_, fun txs p' s' hbatch => ?_⟩⟩
  · obtain ⟨hcount, hsenders, hpays⟩ := pays_of_batch hbatch
    refine ⟨hcount, hsenders, fun t ht => ?_, hexact txs p' s' hbatch⟩
    obtain ⟨payee, hlisted, hother, hpaid⟩ := hpays t ht
    exact ⟨payee, hlisted, hother, hpaid.output⟩
  · obtain ⟨id, hid, hne⟩ := exists_other hnodup hlength payer
    exact exists_offers (Nat.le_trans (length_ids_le hnodup) (by decide)) hid hne
  · obtain ⟨-, hsenders, -⟩ := pays_of_batch hbatch
    obtain ⟨order, hperm, hsub⟩ := hsenders
    have hdistinct : (txs.map (·.sender)).Nodup := hperm.nodup_iff.mp (hsub.nodup hnodup)
    refine ⟨hdistinct, ?_⟩
    refine List.Pairwise.imp₂ (fun t t' hiff hne => hiff.mpr hne) (hexact txs p' s' hbatch) ?_
    exact List.pairwise_map.mp hdistinct

-- Wallets that sign with one pair of keys over and over.
def steadyPool (ids : List WalletId) : WalletPool :=
  ⟨ids.map fun id => ⟨id, .steady .blank⟩, ⟨2⟩⟩

def hundredEach : UnspentSet :=
  UnspentSet.genesis [⟨0⟩, ⟨1⟩] 100

theorem disjoint_iff_of_batch_pair :
    (⟨0⟩ : WalletId) ∈ (steadyPool [⟨0⟩, ⟨1⟩]).ids ∧ (steadyPool [⟨0⟩, ⟨1⟩]).ids.Nodup ∧
      2 ≤ (steadyPool [⟨0⟩, ⟨1⟩]).ids.length ∧
      Ends [⟨0⟩, ⟨1⟩] ⟨0⟩ ([0, 0, 0, 3000000000] : List UInt32) ∧
      (∃ words : List UInt32, Offers [⟨0⟩, ⟨1⟩] ⟨0⟩ words) ∧
      ∃ txs p' rest, (Workload.ofMax 10).batch (steadyPool [⟨0⟩, ⟨1⟩]) hundredEach 2 2
          ([0, 0, 0, 0, 0, 0, 3000000000] : List UInt32) = some (txs, p', rest) ∧
        txs.map (·.sender) = [⟨1⟩, ⟨0⟩] ∧ txs.length ≤ 2 ∧
        txs.Pairwise fun t t' => t.inputs.Disjoint t'.inputs := by
  have hmem : (⟨0⟩ : WalletId) ∈ (steadyPool [⟨0⟩, ⟨1⟩]).ids := by decide
  have hnodup : (steadyPool [⟨0⟩, ⟨1⟩]).ids.Nodup := by decide
  have hlength : 2 ≤ (steadyPool [⟨0⟩, ⟨1⟩]).ids.length := by decide
  have hfirst : below64 2 1 ([0, 0, 0, 3000000000] : List UInt32) = some (0, [0, 3000000000]) := by
    decide
  have hsecond : below64 2 1 ([0, 3000000000] : List UInt32) = some (1, []) := by decide
  have hoffers : Offers [⟨0⟩, ⟨1⟩] ⟨0⟩ ([0, 0, 0, 3000000000] : List UInt32) :=
    ⟨[0, 1], [], .more hfirst (.more hsecond (.none [])), 1, by decide, ⟨1⟩, rfl, by decide⟩
  have hsenders : ((Workload.ofMax 10).batch (steadyPool [⟨0⟩, ⟨1⟩]) hundredEach 2 2
      ([0, 0, 0, 0, 0, 0, 3000000000] : List UInt32)).map (fun r => r.1.map (·.sender)) =
      some [⟨1⟩, ⟨0⟩] := by decide
  obtain ⟨⟨txs, p', rest⟩, hbatch, htxs⟩ := Option.map_eq_some_iff.mp hsenders
  obtain ⟨hends, -, -⟩ := disjoint_iff_of_batch (Workload.ofMax 10) (steadyPool [⟨0⟩, ⟨1⟩])
    hundredEach 2 2 ([0, 0, 0, 3000000000] : List UInt32)
  obtain ⟨-, hall, hdistinct⟩ := disjoint_iff_of_batch (Workload.ofMax 10)
    (steadyPool [⟨0⟩, ⟨1⟩]) hundredEach 2 2 ([0, 0, 0, 0, 0, 0, 3000000000] : List UInt32)
  obtain ⟨hoffered, hapart⟩ := hdistinct hnodup
  exact ⟨hmem, hnodup, hlength, (hends _ hmem).mpr hoffers, hoffered hlength _ hmem, txs, p', rest,
    hbatch, htxs, (hall txs p' rest hbatch).1, (hapart txs p' rest hbatch).2⟩

-- A wallet that is listed twice pays twice from one output, and if it is the only one that is
-- listed no stream leads to a payee.
theorem not_disjoint_of_repeated :
    (∃ txs p' rest, (Workload.ofMax 10).batch (steadyPool [⟨0⟩, ⟨0⟩, ⟨1⟩]) hundredEach 3 2
        ([0, 0, 0, 3000000000, 0, 0, 0, 0, 0, 0, 0, 3000000000] : List UInt32) =
          some (txs, p', rest) ∧
      ¬ txs.Pairwise fun t t' => t.inputs.Disjoint t'.inputs) ∧
    ∀ words : List UInt32, ¬ Ends (steadyPool [⟨0⟩, ⟨0⟩]).ids ⟨0⟩ words := by
  constructor
  · have hinputs : ((Workload.ofMax 10).batch (steadyPool [⟨0⟩, ⟨0⟩, ⟨1⟩]) hundredEach 3 2
        ([0, 0, 0, 3000000000, 0, 0, 0, 0, 0, 0, 0, 3000000000] : List UInt32)).map
        (fun r => r.1.map (·.inputs)) =
        some [[⟨⟨0⟩, 0⟩], [⟨⟨1⟩, 0⟩], [⟨⟨0⟩, 0⟩]] := by decide
    obtain ⟨⟨txs, p', rest⟩, hbatch, htxs⟩ := Option.map_eq_some_iff.mp hinputs
    refine ⟨txs, p', rest, hbatch, fun hapart => ?_⟩
    have hlists := List.pairwise_map.mpr hapart
    rw [show txs.map (·.inputs) = [[⟨⟨0⟩, 0⟩], [⟨⟨1⟩, 0⟩], [⟨⟨0⟩, 0⟩]] from htxs] at hlists
    simp [List.Disjoint] at hlists
  · intro words hends
    obtain ⟨drawn, rest, -, i, -, id, hid, hne⟩ := (ends_iff_offers (by decide)).mp hends
    have hall : ∀ id ∈ (steadyPool [⟨0⟩, ⟨0⟩]).ids, id = ⟨0⟩ := by decide
    exact hne (hall id (List.mem_of_getElem? hid))

end Workload

end QuorumLedger
