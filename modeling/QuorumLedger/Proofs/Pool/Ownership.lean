import QuorumLedger.Proofs.Pool.Journal

namespace QuorumLedger

namespace Pool

-- Whether all inputs of a transaction are live and pay its sender.
def Owns (p : Pool) (t : Transaction) : Prop :=
  ∀ r ∈ t.inputs, ∃ o, p.unspent.get? r = some o ∧ o.receiver = t.sender

theorem owns_of_admit {p : Pool} {t : Transaction} (h : p.admit? t = .ok ()) : p.Owns t := by
  obtain ⟨hforeign, -, hcheck⟩ := admit?_eq_ok_iff.mp h
  intro r hr
  obtain ⟨o, ho⟩ := UnspentSet.contains_iff.mp (Transaction.contains_of_check hcheck hr)
  exact ⟨o, ho, foreignInput_eq_none_iff.mp hforeign r hr o ho⟩

-- A number that is not in use is none of a live output, and so none of an input that is live.
theorem ne_of_admit {p : Pool} {t : Transaction} (h : p.admit? t = .ok ()) {s : Transaction}
    (hs : p.Owns s) : ∀ r ∈ s.inputs, r.tx ≠ t.id := by
  obtain ⟨-, hunused, -⟩ := admit?_eq_ok_iff.mp h
  intro r hr
  obtain ⟨o, ho, -⟩ := hs r hr
  exact (idInUse_eq_false_iff.mp hunused).2 r (UnspentSet.contains_iff.mpr ⟨o, ho⟩)

end Pool

namespace Journal

-- The queue owns what it spends, and no transaction is numbered like something that it or an
-- earlier one spends, neither in the queue nor in a block.
structure Owned (j : Journal) : Prop where
  owns : ∀ t ∈ j.pool.pending, j.pool.Owns t
  queue : Pool.Ordered j.pool.pending
  built : ∀ b ∈ j.built, Pool.Ordered b.transactions

theorem owned_opened (limits : PoolLimits) (wallets : List WalletId) (coins : UInt64) :
    (opened limits wallets coins).Owned where
  owns := by simp [opened, start, Pool.initializeCoins, Pool.withUnspent, Pool.create]
  queue := ⟨by simp [opened, start, Pool.initializeCoins, Pool.withUnspent, Pool.create], .nil⟩
  built := by simp [opened, start]

namespace Owned

variable {j : Journal}

theorem submit (h : j.Owned) (t : Transaction) : (j.call (.submit t)).Owned := by
  rcases j.pool.submit_cases t with ⟨e, hnext⟩ | ⟨-, hadmit, hnext⟩
  · simp only [Journal.call, hnext]
    exact ⟨h.owns, h.queue, h.built⟩
  · simp only [Journal.call, hnext]
    have howns := Pool.owns_of_admit hadmit
    refine ⟨?_, ⟨?_, ?_⟩, h.built⟩
    · intro s hs
      rcases List.mem_append.mp hs with hs | hs
      · exact h.owns s hs
      · exact List.mem_singleton.mp hs ▸ howns
    · intro s hs
      rcases List.mem_append.mp hs with hs | hs
      · exact h.queue.own s hs
      · exact List.mem_singleton.mp hs ▸ Pool.ne_of_admit hadmit howns
    · refine List.pairwise_append.mpr ⟨h.queue.earlier, List.pairwise_singleton _ _, ?_⟩
      intro s hs t' ht'
      exact List.mem_singleton.mp ht' ▸ Pool.ne_of_admit hadmit (h.owns s hs)

theorem build (h : j.Owned) (height : Height) (parent : Digest) :
    (j.call (.build height parent)).Owned := by
  obtain ⟨taken, left, hqueue, hnext, hbuilt⟩ := j.pool.buildBlock_cases height parent
  have hqueued := h.queue
  rw [hqueue] at hqueued
  simp only [Journal.call, hnext]
  refine ⟨fun t ht => h.owns t (hqueue ▸ List.mem_append_right _ ht),
    hqueued.sublist (List.sublist_append_right _ _), ?_⟩
  intro b hb
  rcases List.mem_append.mp hb with hb | hb
  · exact h.built b hb
  · exact hqueued.sublist ((hbuilt b (Option.mem_toList.mp hb)).trans (List.sublist_append_left _ _))

-- What is still live after a block that was built here is what was live before.
theorem apply (h : j.Owned) {b : Block} (hb : b ∈ j.built) : (j.call (.apply b)).Owned := by
  refine ⟨?_, h.queue.sublist List.filter_sublist, h.built⟩
  intro t ht r hr
  obtain ⟨hqueued, hkept⟩ := List.mem_filter.mp ht
  obtain ⟨o, ho, hreceiver⟩ := h.owns t hqueued r hr
  exact ⟨o, (h.built b hb).get?_applyTransactions ho (List.all_eq_true.mp hkept r hr), hreceiver⟩

theorem call (h : j.Owned) {c : Pool.Call} (hown : j.Own c) : (j.call c).Owned := by
  cases c with
  | fund coins => exact hown.elim
  | submit t => exact h.submit t
  | build height parent => exact h.build height parent
  | apply b => exact h.apply hown

end Owned

theorem owned_of_reachable {limits : PoolLimits} {wallets : List WalletId} {coins : UInt64}
    {j : Journal} (h : Reachable Own (opened limits wallets coins) j) : j.Owned := by
  induction h with
  | start => exact owned_opened limits wallets coins
  | call before allowed ih => exact ih.call allowed

-- A number is refused while an output of that number is live. So the creator of an output comes
-- before its spender in every queue and every block, and no block takes an output away and then
-- puts another one in its place.
theorem owns_of_reachable {limits : PoolLimits} {wallets : List WalletId} {coins : UInt64}
    {j : Journal} (h : Reachable Own (opened limits wallets coins) j) :
    (∀ t ∈ j.pool.pending, ∀ r ∈ t.inputs,
        ∃ o, j.pool.unspent.get? r = some o ∧ o.receiver = t.sender) ∧
      ∀ height parent b, (j.pool.buildBlock height parent).1 = some b →
        ∀ t ∈ b.transactions, ∀ r ∈ t.inputs,
          ∃ o, (j.pool.buildBlock height parent).2.unspent.get? r = some o ∧
            o.receiver = t.sender := by
  have howned := owned_of_reachable h
  refine ⟨howned.owns, fun height parent b hb t ht => ?_⟩
  obtain ⟨taken, left, hqueue, hnext, hbuilt⟩ := j.pool.buildBlock_cases height parent
  rw [hnext]
  exact howned.owns t (hqueue ▸ List.mem_append_left _ ((hbuilt b hb).subset ht))

-- The queue outlasts a block whose transaction has the number of the queued one.
theorem owns_of_reachable_overlapping :
    Reachable Own (opened {} [⟨0⟩, ⟨1⟩] 100)
        (overlapping.call (.apply (handingBlock ⟨0⟩ ⟨1⟩))) ∧
      handing ⟨1⟩ ⟨0⟩ ∈ (overlapping.call (.apply (handingBlock ⟨0⟩ ⟨1⟩))).pool.pending ∧
      ∃ o, (overlapping.call (.apply (handingBlock ⟨0⟩ ⟨1⟩))).pool.unspent.get? ⟨⟨1⟩, 0⟩ = some o ∧
        o.receiver = ⟨1⟩ := by
  have hreachable : Reachable Own (opened {} [⟨0⟩, ⟨1⟩] 100)
      (overlapping.call (.apply (handingBlock ⟨0⟩ ⟨1⟩))) :=
    (Reachable.call reachable_overlapping checked_overlapping).mono fun _ _ => own_of_checked
  have hpending : (overlapping.call (.apply (handingBlock ⟨0⟩ ⟨1⟩))).pool.pending =
      [handing ⟨1⟩ ⟨0⟩] := rfl
  have hqueued : handing ⟨1⟩ ⟨0⟩ ∈
      (overlapping.call (.apply (handingBlock ⟨0⟩ ⟨1⟩))).pool.pending := by
    rw [hpending]
    exact List.mem_cons_self
  exact ⟨hreachable, hqueued, (owns_of_reachable hreachable).1 _ hqueued _ List.mem_cons_self⟩

end Journal

end QuorumLedger
