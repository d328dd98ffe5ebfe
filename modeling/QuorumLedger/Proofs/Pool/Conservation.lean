import Mathlib.Data.List.Pairwise
import QuorumLedger.Proofs.Pool.Journal

namespace QuorumLedger

theorem valueAt_sum_inputsOf (u : UnspentSet) (transactions : List Transaction) :
    ((inputsOf transactions).map u.valueAt).sum =
      (transactions.map fun t => (t.inputs.map u.valueAt).sum).sum := by
  induction transactions with
  | nil => rfl
  | cons t rest ih =>
      have hsplit : inputsOf (t :: rest) = t.inputs ++ inputsOf rest := List.flatMap_cons
      rw [hsplit, List.map_append, List.sum_append, ih, List.map_cons, List.sum_cons]

namespace Transaction

-- What passes takes in what it pays out, be it nothing.
theorem valueAt_sum_of_check {t : Transaction} {view : LedgerView} (h : t.check view = .ok ()) :
    (t.inputs.map view.unspent.valueAt).sum = valueOf t.outputs := by
  rcases check_eq_ok_iff.mp h with ⟨hin, hout⟩ | ⟨-, -, hsum, -⟩
  · rw [hin, hout]
    rfl
  · exact hsum

end Transaction

namespace Block

theorem contains_of_check {b : Block} {view : LedgerView} (h : b.check view = .ok ())
    {r : OutputRef} (hr : r ∈ b.spent) : view.unspent.contains r = true := by
  obtain ⟨-, hpasses, -⟩ := check_eq_ok_iff.mp h
  obtain ⟨t, ht, hrt⟩ := mem_inputsOf.mp hr
  exact Transaction.contains_of_check (hpasses t ht) hrt

end Block

namespace Pool

theorem total_of_check {b : Block} {view : LedgerView} (h : b.check view = .ok ()) :
    (applyTransactions b.transactions view.unspent).2.total +
        leftOutOf b.transactions view.unspent =
      view.unspent.total := by
  obtain ⟨-, hpasses, hnodup⟩ := Block.check_eq_ok_iff.mp h
  have happly := total_applyTransactions (fun r hr => Block.contains_of_check h hr) hnodup
  have hpaid : (b.transactions.map fun t => (t.inputs.map view.unspent.valueAt).sum) =
      b.transactions.map fun t => valueOf t.outputs :=
    List.map_congr_left fun t ht => Transaction.valueAt_sum_of_check (hpasses t ht)
  rw [valueAt_sum_inputsOf, hpaid] at happly
  omega

end Pool

namespace Journal

-- The numbers that funding and applied blocks have used.
def Used (first : UnspentSet) (j : Journal) (id : TxId) : Prop :=
  (∃ r, first.contains r = true ∧ r.tx = id) ∨ ∃ b ∈ j.applied, ∃ t ∈ b.transactions, t.id = id

-- No number is used twice, be it by funding and a block or by two transactions of blocks, and every
-- output of a transaction has an index of its own.
structure Unrepeated (first : UnspentSet) (j : Journal) : Prop where
  funded : ∀ b ∈ j.built, ∀ t ∈ b.transactions, ∀ r, first.contains r = true → r.tx ≠ t.id
  built : (j.built.flatMap fun b => b.transactions.map (·.id)).Nodup
  short : ∀ b ∈ j.built, ∀ t ∈ b.transactions, t.outputs.length ≤ UInt32.size

-- Live outputs have used numbers, and what an applied block spent is gone for good.
structure Settled (first : UnspentSet) (j : Journal) : Prop where
  applied : ∀ b ∈ j.applied, b ∈ j.built
  live : ∀ r, j.pool.unspent.contains r = true → j.Used first r.tx
  spent : ∀ b ∈ j.applied, ∀ r ∈ b.spent, j.pool.unspent.get? r = none ∧ j.Used first r.tx
  kept : j.lost = 0

variable {first : UnspentSet} {j : Journal}

theorem Unrepeated.nodup (h : j.Unrepeated first) {b : Block} (hb : b ∈ j.built) :
    (b.transactions.map (·.id)).Nodup :=
  (List.nodup_flatMap.mp h.built).1 b hb

-- A number leads to one block.
theorem Unrepeated.eq_of_id_eq (h : j.Unrepeated first) {b b' : Block} (hb : b ∈ j.built)
    (hb' : b' ∈ j.built) {t t' : Transaction} (ht : t ∈ b.transactions) (ht' : t' ∈ b'.transactions)
    (hid : t.id = t'.id) : b = b' := by
  by_contra hne
  have hsymm : Std.Symm (Function.onFun List.Disjoint fun b : Block => b.transactions.map (·.id)) :=
    ⟨fun _ _ hd _ hleft hright => hd hright hleft⟩
  have hapart := (List.nodup_flatMap.mp h.built).2.forall hb hb' hne
  exact hapart (List.mem_map.mpr ⟨t, ht, rfl⟩) (List.mem_map.mpr ⟨t', ht', hid.symm⟩)

theorem exists_built_call (j : Journal) (c : Pool.Call) :
    ∃ more, (j.call c).built = j.built ++ more := by
  cases c with
  | build height parent => exact ⟨_, rfl⟩
  | fund coins => exact ⟨[], (List.append_nil _).symm⟩
  | submit t => exact ⟨[], (List.append_nil _).symm⟩
  | apply b => exact ⟨[], (List.append_nil _).symm⟩

theorem Unrepeated.of_call {c : Pool.Call} (h : (j.call c).Unrepeated first) :
    j.Unrepeated first := by
  obtain ⟨more, hmore⟩ := j.exists_built_call c
  have hsub : ∀ b ∈ j.built, b ∈ (j.call c).built := fun b hb => hmore ▸ List.mem_append_left _ hb
  have hnodup := h.built
  rw [hmore, List.flatMap_append] at hnodup
  exact ⟨fun b hb => h.funded b (hsub b hb), hnodup.of_append_left,
    fun b hb => h.short b (hsub b hb)⟩

theorem Used.call {id : TxId} (h : j.Used first id) (c : Pool.Call) : (j.call c).Used first id := by
  rcases h with hfirst | ⟨b, hb, ht⟩
  · exact .inl hfirst
  · refine .inr ⟨b, ?_, ht⟩
    cases c with
    | apply b' => exact List.mem_append_left _ hb
    | fund coins => exact hb
    | submit t => exact hb
    | build height parent => exact hb

-- Queueing and assembly leave the ledger alone.
theorem call_cases {c : Pool.Call} (hown : j.Own c) :
    (∃ b, c = .apply b) ∨
      ((j.call c).pool.unspent = j.pool.unspent ∧ (j.call c).applied = j.applied ∧
        (j.call c).lost = j.lost) := by
  cases c with
  | fund coins => exact hown.elim
  | apply b => exact .inl ⟨b, rfl⟩
  | submit t =>
      refine .inr ⟨?_, rfl, rfl⟩
      rcases j.pool.submit_cases t with ⟨e, hnext⟩ | ⟨-, -, hnext⟩ <;>
        simp only [Journal.call, hnext, Pool.unspent]
  | build height parent =>
      refine .inr ⟨?_, rfl, rfl⟩
      obtain ⟨taken, left, -, hnext, -⟩ := j.pool.buildBlock_cases height parent
      simp only [Journal.call, hnext, Pool.unspent]

namespace Settled

theorem start (p : Pool) : (start p).Settled p.unspent where
  applied := by simp [Journal.start]
  live := fun r hr => .inl ⟨r, hr, rfl⟩
  spent := by simp [Journal.start]
  kept := rfl

theorem applied_apply (h : j.Settled first) {b : Block} (hb : b ∈ j.built) :
    ∀ b' ∈ (j.call (.apply b)).applied, b' ∈ j.built := by
  intro b' hb'
  rcases List.mem_append.mp hb' with hb' | hb'
  · exact h.applied b' hb'
  · exact List.mem_singleton.mp hb' ▸ hb

-- A second application finds nothing to spend, and so nothing to pay.
theorem applyAgain (h : j.Settled first) {b : Block} (hb : b ∈ j.applied)
    (hcheck : b.check j.pool.view = .ok ()) : (j.call (.apply b)).Settled first := by
  obtain ⟨-, hpasses, -⟩ := Block.check_eq_ok_iff.mp hcheck
  have hempty : ∀ t ∈ b.transactions, t.inputs = [] ∧ t.outputs = [] := by
    intro t ht
    have hin : t.inputs = [] := by
      refine List.eq_nil_iff_forall_not_mem.mpr fun r hr => ?_
      have hlive : j.pool.unspent.contains r = true :=
        Transaction.contains_of_check (hpasses t ht) hr
      have hdead := (h.spent b hb r (mem_inputsOf.mpr ⟨t, ht, hr⟩)).1
      rw [UnspentSet.contains_eq_false_iff.mpr hdead] at hlive
      cases hlive
    rcases Transaction.check_eq_ok_iff.mp (hpasses t ht) with hboth | ⟨hsome, -⟩
    · exact hboth
    · exact absurd hin hsome
  obtain ⟨hsame, hnone⟩ := Pool.applyTransactions_of_empty hempty j.pool.unspent
  have hunspent : (j.call (.apply b)).pool.unspent = j.pool.unspent := hsame
  refine ⟨h.applied_apply (h.applied b hb), ?_, ?_, ?_⟩
  · intro r hr
    rw [hunspent] at hr
    exact (h.live r hr).call _
  · intro b' hb' r hr
    have hbefore : b' ∈ j.applied := by
      rcases List.mem_append.mp hb' with hb' | hb'
      · exact hb'
      · exact List.mem_singleton.mp hb' ▸ hb
    obtain ⟨hdead, hused⟩ := h.spent b' hbefore r hr
    exact ⟨hunspent ▸ hdead, hused.call _⟩
  · show j.lost + _ = 0
    rw [h.kept, hnone]

-- The numbers of a block are new when it is applied first, so that nothing live is in its way.
theorem applyFirst (h : j.Settled first) (hj : j.Unrepeated first) {b : Block} (hb : b ∈ j.built)
    (hnew : b ∉ j.applied) (hcheck : b.check j.pool.view = .ok ()) :
    (j.call (.apply b)).Settled first := by
  have hunused : ∀ t ∈ b.transactions, ¬ j.Used first t.id := by
    rintro t ht (⟨r, hr, hid⟩ | ⟨b', hb', t', ht', hid⟩)
    · exact hj.funded b hb t ht r hr hid
    · exact hnew (hj.eq_of_id_eq (h.applied b' hb') hb ht' ht hid ▸ hb')
  have hother : ∀ r, j.Used first r.tx → (j.call (.apply b)).pool.unspent.get? r =
      if r ∈ b.spent then none else j.pool.unspent.get? r := fun r hr =>
    Pool.get?_applyTransactions_of_ne (fun t ht he => hunused t ht (he ▸ hr)) j.pool.unspent
  have hfresh : ∀ t ∈ b.transactions, ∀ r, r.tx = t.id → j.pool.unspent.get? r = none :=
    fun t ht r hr => UnspentSet.contains_eq_false_iff.mp <| Bool.eq_false_iff.mpr fun hlive =>
      hunused t ht (hr ▸ h.live r hlive)
  have hnone := Pool.leftOutOf_eq_zero (hj.short b hb) hfresh (hj.nodup hb)
  refine ⟨h.applied_apply hb, ?_, ?_, ?_⟩
  · intro r hr
    rcases Pool.contains_of_applyTransactions hr with hown | hbefore
    · exact .inr ⟨b, List.mem_append_right _ List.mem_cons_self, hown⟩
    · exact (h.live r hbefore).call _
  · intro b' hb' r hr
    rcases List.mem_append.mp hb' with hb' | hb'
    · obtain ⟨hdead, hused⟩ := h.spent b' hb' r hr
      exact ⟨by rw [hother r hused, hdead, ite_self], hused.call _⟩
    · have hspent : r ∈ b.spent := List.mem_singleton.mp hb' ▸ hr
      have hused := h.live r (Block.contains_of_check hcheck hspent)
      exact ⟨by rw [hother r hused, if_pos hspent], hused.call _⟩
  · show j.lost + _ = 0
    rw [h.kept, hnone]

theorem call (h : j.Settled first) (hj : j.Unrepeated first) {c : Pool.Call} (hc : j.Checked c) :
    (j.call c).Settled first := by
  rcases call_cases (own_of_checked hc) with ⟨b, rfl⟩ | ⟨hunspent, happlied, hlost⟩
  · by_cases hagain : b ∈ j.applied
    · exact h.applyAgain hagain hc.2
    · exact h.applyFirst hj hc.1 hagain hc.2
  · obtain ⟨more, hmore⟩ := j.exists_built_call c
    refine ⟨?_, ?_, ?_, hlost.trans h.kept⟩
    · rw [happlied, hmore]
      exact fun b hb => List.mem_append_left _ (h.applied b hb)
    · rw [hunspent]
      exact fun r hr => (h.live r hr).call c
    · rw [happlied, hunspent]
      exact fun b hb r hr => ⟨(h.spent b hb r hr).1, (h.spent b hb r hr).2.call c⟩

end Settled

theorem settled_of_reachable {p : Pool} (h : Reachable Checked (start p) j)
    (hj : j.Unrepeated p.unspent) : j.Settled p.unspent := by
  induction h with
  | start => exact .start p
  | call before allowed ih => exact (ih hj.of_call).call hj.of_call allowed

-- Each call moves value only from the ledger to what was left out.
theorem accounted_call {c : Pool.Call} (hc : j.Checked c) :
    (j.call c).pool.unspent.total + (j.call c).lost = j.pool.unspent.total + j.lost := by
  rcases call_cases (own_of_checked hc) with ⟨b, rfl⟩ | ⟨hunspent, -, hlost⟩
  · have htotal := Pool.total_of_check hc.2
    show (Pool.applyTransactions b.transactions j.pool.view.unspent).2.total +
      (j.lost + Pool.leftOutOf b.transactions j.pool.view.unspent) =
        j.pool.view.unspent.total + j.lost
    omega
  · rw [hunspent, hlost]

theorem accounted_of_reachable {p : Pool} (h : Reachable Checked (start p) j) :
    j.pool.unspent.total + j.lost = p.unspent.total := by
  induction h with
  | start => rfl
  | call before allowed ih => exact (accounted_call allowed).trans ih

-- A number is free for a new transaction while its block is built and not yet applied, and again
-- once all its outputs are spent. An output that meets a live one of its number is left out then,
-- and its value is gone.
theorem total_of_reachable {limits : PoolLimits} {wallets : List WalletId} {coins : UInt64}
    (h : Reachable Checked (opened limits wallets coins) j) :
    j.pool.unspent.total + j.lost = (opened limits wallets coins).pool.unspent.total ∧
      (j.Unrepeated (opened limits wallets coins).pool.unspent →
        j.pool.unspent.total = (opened limits wallets coins).pool.unspent.total) := by
  have haccounted := accounted_of_reachable h
  refine ⟨haccounted, fun hj => ?_⟩
  have hkept := (settled_of_reachable h hj).kept
  rw [hkept] at haccounted
  exact haccounted

-- Both blocks of one number are applied.
def colliding : Journal :=
  ((overlapping.call (.build ⟨1⟩ .zero)).call (.apply (handingBlock ⟨0⟩ ⟨1⟩))).call
    (.apply (handingBlock ⟨1⟩ ⟨0⟩))

theorem reachable_colliding : Reachable Checked (opened {} [⟨0⟩, ⟨1⟩] 100) colliding := by
  have hbuilt : Reachable Checked _ (overlapping.call (.build ⟨1⟩ .zero)) :=
    .call reachable_overlapping trivial
  have hfirst : Reachable Checked _
      ((overlapping.call (.build ⟨1⟩ .zero)).call (.apply (handingBlock ⟨0⟩ ⟨1⟩))) :=
    .call hbuilt ⟨List.mem_cons_self, check_handingBlock rfl⟩
  exact .call hfirst ⟨List.mem_cons_of_mem _ List.mem_cons_self, check_handingBlock rfl⟩

theorem unrepeated_overlapping :
    (overlapping.call (.apply (handingBlock ⟨0⟩ ⟨1⟩))).Unrepeated
      (opened {} [⟨0⟩, ⟨1⟩] 100).pool.unspent := by
  have hbuilt : (overlapping.call (.apply (handingBlock ⟨0⟩ ⟨1⟩))).built =
      [handingBlock ⟨0⟩ ⟨1⟩] := rfl
  have hfirst : (opened {} [⟨0⟩, ⟨1⟩] 100).pool.unspent.entries =
      [(⟨⟨0⟩, 0⟩, ⟨100, ⟨0⟩⟩), (⟨⟨1⟩, 0⟩, ⟨100, ⟨1⟩⟩)] := by decide
  constructor
  · rw [hbuilt]
    intro b hb t ht r hr hid
    rw [List.mem_singleton.mp hb] at ht
    rw [List.mem_singleton.mp ht] at hid
    obtain ⟨o, ho⟩ := UnspentSet.contains_iff.mp hr
    have hentry := UnspentSet.mem_of_find ho
    rw [hfirst, List.mem_cons, List.mem_singleton] at hentry
    rcases hentry with he | he <;> cases he <;> exact absurd hid (by decide)
  · rw [hbuilt]
    decide
  · rw [hbuilt]
    intro b hb t ht
    rw [List.mem_singleton.mp hb] at ht
    rw [List.mem_singleton.mp ht]
    show 1 ≤ 4294967296
    omega

-- After one of the two blocks all value is there, after the other the second output is missing.
theorem total_of_reachable_colliding :
    (overlapping.call (.apply (handingBlock ⟨0⟩ ⟨1⟩))).pool.unspent.total = 200 ∧
      Reachable Checked (opened {} [⟨0⟩, ⟨1⟩] 100) colliding ∧
      colliding.lost = 100 ∧ colliding.pool.unspent.total = 100 := by
  have hfunded : (opened {} [⟨0⟩, ⟨1⟩] 100).pool.unspent.total = 200 := rfl
  have hlost : colliding.lost = 100 := rfl
  have hfirst := (total_of_reachable (.call reachable_overlapping checked_overlapping)).2
    unrepeated_overlapping
  have hboth := (total_of_reachable reachable_colliding).1
  rw [hfunded] at hfirst hboth
  exact ⟨hfirst, reachable_colliding, hlost, by omega⟩

end Journal

end QuorumLedger
