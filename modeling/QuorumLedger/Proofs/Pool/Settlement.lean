import QuorumLedger.Proofs.Pool.Conservation

namespace QuorumLedger

namespace UnspentSet

-- The entries are in order, so the set is known once it is known what they are.
theorem eq_of_perm {u v : UnspentSet} (h : u.entries.Perm v.entries) : u = v := by
  have hentries : u.entries = v.entries :=
    h.eq_of_pairwise (fun a b _ _ hlt hgt => absurd hgt (Nat.lt_asymm hlt)) u.sorted v.sorted
  obtain ⟨entries, hu⟩ := u
  obtain ⟨entries', hv⟩ := v
  cases hentries
  rfl

end UnspentSet

-- The entries that outputs get, numbered from `i`.
def numbered (id : TxId) (i : Nat) (outputs : List Output) : List UnspentEntry :=
  (outputs.zipIdx i).map fun e => (⟨id, UInt32.ofNat e.2⟩, e.1)

theorem tx_of_mem_numbered {id : TxId} {i : Nat} {outputs : List Output} {e : UnspentEntry}
    (h : e ∈ numbered id i outputs) : e.1.tx = id := by
  obtain ⟨_, -, rfl⟩ := List.mem_map.mp h
  rfl

-- The outputs of transactions, each under the number of its transaction and its place there.
def createdBy (transactions : List Transaction) : List UnspentEntry :=
  transactions.flatMap fun t => numbered t.id 0 t.outputs

namespace Pool

open Journal

-- Transactions that spend distinct live outputs and have new numbers, each its own.
structure Clear (transactions : List Transaction) (u : UnspentSet) : Prop where
  live : ∀ r ∈ inputsOf transactions, u.contains r = true
  distinct : (inputsOf transactions).Nodup
  numbers : (transactions.map (·.id)).Nodup
  fresh : ∀ t ∈ transactions, ∀ r, u.contains r = true → r.tx ≠ t.id
  short : ∀ t ∈ transactions, t.outputs.length ≤ UInt32.size

variable {p : Pool} {b : Block} {u : UnspentSet} {t : Transaction}
  {transactions rest : List Transaction}

theorem Clear.perm (h : Clear transactions u) {others : List Transaction}
    (hperm : others.Perm transactions) : Clear others u where
  live := fun r hr => h.live r ((hperm.flatMap_right _).mem_iff.mp hr)
  distinct := (hperm.flatMap_right _).nodup_iff.mpr h.distinct
  numbers := (hperm.map _).nodup_iff.mpr h.numbers
  fresh := fun t ht => h.fresh t (hperm.mem_iff.mp ht)
  short := fun t ht => h.short t (hperm.mem_iff.mp ht)

theorem entries_spend (inputs : List OutputRef) (u : UnspentSet) :
    (spend inputs u).2.entries = u.entries.filter fun e => decide (e.1 ∉ inputs) := by
  induction inputs generalizing u with
  | nil => simp [spend]
  | cons r rest ih =>
      have herase : (u.erase r).entries = u.entries.filter fun e => !decide (e.1 = r) := rfl
      rw [spend, ih, herase, List.filter_filter]
      refine List.filter_congr fun e _ => ?_
      by_cases hr : e.1 = r <;> simp [hr]

theorem spend_eq_zero {inputs : List OutputRef} (hnodup : inputs.Nodup)
    (hlive : ∀ r ∈ inputs, u.contains r = true) : (spend inputs u).1 = 0 := by
  induction inputs generalizing u with
  | nil => rfl
  | cons r rest ih =>
      obtain ⟨hr, hrest⟩ := List.nodup_cons.mp hnodup
      obtain ⟨hnow, hlater⟩ := List.forall_mem_cons.mp hlive
      have hkept : ∀ s ∈ rest, (u.erase r).contains s = true := by
        intro s hs
        have hne : r ≠ s := fun he => hr (he ▸ hs)
        rw [UnspentSet.contains, UnspentSet.get?_erase, if_neg hne]
        exact hlater s hs
      have hzero := ih hrest hkept
      simp only [spend, hzero, hnow, if_true]

-- Outputs whose references are all free come beside what is there.
theorem entries_addOutputs {id : TxId} {i : Nat} {outputs : List Output}
    (hfits : i + outputs.length ≤ UInt32.size)
    (hfree : ∀ k, i ≤ k → k < UInt32.size → u.get? ⟨id, UInt32.ofNat k⟩ = none) :
    (addOutputs id i outputs u).entries.Perm (numbered id i outputs ++ u.entries) := by
  induction outputs generalizing i u with
  | nil => exact .refl _
  | cons o rest ih =>
      rw [List.length_cons] at hfits
      have hi : i < UInt32.size := by omega
      have hnone := hfree i (Nat.le_refl i) hi
      have hlater : ∀ k, i + 1 ≤ k → k < UInt32.size →
          (u.insert ⟨id, UInt32.ofNat i⟩ o).get? ⟨id, UInt32.ofNat k⟩ = none := by
        intro k hk hlt
        have hne : (⟨id, UInt32.ofNat i⟩ : OutputRef) ≠ ⟨id, UInt32.ofNat k⟩ := by
          intro he
          have hnat := congrArg (fun r => r.index.toNat) he
          simp only [UInt32.toNat_ofNat_of_lt' hi, UInt32.toNat_ofNat_of_lt' hlt] at hnat
          omega
        rw [UnspentSet.get?_insert, if_neg hne]
        exact hfree k (by omega) hlt
      have hput : (u.insert ⟨id, UInt32.ofNat i⟩ o).entries.Perm
          ((⟨id, UInt32.ofNat i⟩, o) :: u.entries) := UnspentSet.perm_put hnone
      have hadd : addOutputs id i (o :: rest) u =
          addOutputs id (i + 1) rest (u.insert ⟨id, UInt32.ofNat i⟩ o) := by
        simp only [addOutputs, UnspentSet.contains_eq_false_iff.mpr hnone, Bool.false_eq_true,
          if_false]
      rw [hadd]
      exact (ih (by omega) hlater).trans ((hput.append_left _).trans List.perm_middle)

namespace Clear

theorem get?_eq_none (h : Clear transactions u) (ht : t ∈ transactions) {r : OutputRef}
    (hr : r.tx = t.id) : u.get? r = none :=
  UnspentSet.contains_eq_false_iff.mp <| Bool.eq_false_iff.mpr fun hlive => h.fresh t ht r hlive hr

theorem nodup_append (h : Clear (t :: rest) u) : (t.inputs ++ inputsOf rest).Nodup :=
  h.distinct

theorem entries_applied (h : Clear (t :: rest) u) :
    (applied t u).entries.Perm
      (numbered t.id 0 t.outputs ++ u.entries.filter fun e => decide (e.1 ∉ t.inputs)) := by
  have hshort := h.short t List.mem_cons_self
  rw [← entries_spend]
  refine entries_addOutputs (by omega) fun k _ _ => ?_
  rw [get?_spend, h.get?_eq_none List.mem_cons_self rfl, ite_self]

-- What the later transactions ask for is not touched by the first.
theorem tail (h : Clear (t :: rest) u) : Clear rest (applied t u) where
  live := by
    intro r hr
    have hlater : r ∉ t.inputs := fun hnow =>
      (List.nodup_append'.mp h.nodup_append).2.2 hnow hr
    obtain ⟨o, ho⟩ := UnspentSet.contains_iff.mp (h.live r (List.mem_append_right _ hr))
    exact UnspentSet.contains_iff.mpr ⟨o, get?_applied_of_live ho hlater⟩
  distinct := (List.nodup_append'.mp h.nodup_append).2.1
  numbers := (List.nodup_cons.mp h.numbers).2
  fresh := by
    intro s hs r hr he
    by_cases hown : r.tx = t.id
    · exact (List.nodup_cons.mp h.numbers).1 (List.mem_map.mpr ⟨s, hs, he.symm.trans hown⟩)
    · rw [UnspentSet.contains, get?_applied_of_ne hown] at hr
      split at hr
      · cases hr
      · exact h.fresh s (List.mem_cons_of_mem t hs) r hr he
  short := fun s hs => h.short s (List.mem_cons_of_mem t hs)

-- What a transaction pays out is new, so nobody in the block spends it.
theorem filter_numbered (h : Clear (t :: rest) u) :
    ((numbered t.id 0 t.outputs).filter fun e => decide (e.1 ∉ inputsOf rest)) =
      numbered t.id 0 t.outputs := by
  refine List.filter_eq_self.mpr fun e he => decide_eq_true fun hspent => ?_
  have hlive := h.live e.1 (List.mem_append_right _ hspent)
  exact h.fresh t List.mem_cons_self e.1 hlive (tx_of_mem_numbered he)

-- Induction over the transactions. Each takes its inputs from what was there at the start, and its
-- outputs stay.
theorem applyTransactions (h : Clear transactions u) :
    (Pool.applyTransactions transactions u).1 = 0 ∧
      (Pool.applyTransactions transactions u).2.entries.Perm
        (createdBy transactions ++
          u.entries.filter fun e => decide (e.1 ∉ inputsOf transactions)) := by
  induction transactions generalizing u with
  | nil => exact ⟨rfl, by simp [Pool.applyTransactions, createdBy, inputsOf]⟩
  | cons t rest ih =>
      obtain ⟨hmissing, hentries⟩ := ih h.tail
      constructor
      · have hnow := spend_eq_zero (List.nodup_append'.mp h.nodup_append).1
          fun r hr => h.live r (List.mem_append_left _ hr)
        show (spend t.inputs u).1 + (Pool.applyTransactions rest (applied t u)).1 = 0
        rw [hnow, hmissing]
      · have hspent : (fun e : UnspentEntry => decide (e.1 ∉ inputsOf (t :: rest))) =
            fun e => decide (e.1 ∉ inputsOf rest) && decide (e.1 ∉ t.inputs) := by
          funext e
          rw [← Bool.decide_and, inputsOf, List.flatMap_cons]
          simp only [List.mem_append, not_or, and_comm]
          rfl
        have hkept := h.entries_applied.filter fun e => decide (e.1 ∉ inputsOf rest)
        rw [List.filter_append, h.filter_numbered, List.filter_filter, ← hspent] at hkept
        have hcreated : createdBy (t :: rest) = numbered t.id 0 t.outputs ++ createdBy rest :=
          List.flatMap_cons
        rw [applyTransactions_cons, hcreated]
        refine hentries.trans ((hkept.append_left _).trans ?_)
        rw [← List.append_assoc]
        exact List.perm_append_comm.append_right _

theorem of_check (hcheck : b.check p.view = .ok ())
    (hnumbers : (b.transactions.map (·.id)).Nodup)
    (hfresh : ∀ t ∈ b.transactions, ∀ r, p.unspent.contains r = true → r.tx ≠ t.id)
    (hshort : ∀ t ∈ b.transactions, t.outputs.length < UInt32.size) :
    Clear b.transactions p.unspent where
  live := fun _ hr => Block.contains_of_check hcheck hr
  distinct := (Block.check_eq_ok_iff.mp hcheck).2.2
  numbers := hnumbers
  fresh := hfresh
  short := fun t ht => Nat.le_of_lt (hshort t ht)

theorem total (h : Clear b.transactions p.unspent) (hcheck : b.check p.view = .ok ()) :
    (p.applyBlock b).2.unspent.total = p.unspent.total := by
  have hnone : leftOutOf b.transactions p.unspent = 0 :=
    leftOutOf_eq_zero h.short (fun t ht r hr => h.get?_eq_none ht hr) h.numbers
  have htotal : (p.applyBlock b).2.unspent.total + leftOutOf b.transactions p.unspent =
      p.unspent.total := total_of_check hcheck
  rw [hnone] at htotal
  exact htotal

-- Both orders leave the same entries, and the queue is looked at only afterwards.
theorem applyBlock_of_perm (h : Clear b.transactions p.unspent) {b' : Block}
    (hperm : b'.transactions.Perm b.transactions) : p.applyBlock b' = p.applyBlock b := by
  obtain ⟨hmissing, hentries⟩ := h.applyTransactions
  obtain ⟨hmissing', hentries'⟩ := (h.perm hperm).applyTransactions
  have hinputs : (fun e : UnspentEntry => decide (e.1 ∉ inputsOf b'.transactions)) =
      fun e => decide (e.1 ∉ inputsOf b.transactions) := by
    funext e
    exact decide_eq_decide.mpr (not_congr (hperm.flatMap_right _).mem_iff)
  rw [hinputs] at hentries'
  have hsame := UnspentSet.eq_of_perm <|
    hentries'.trans (((hperm.flatMap_right _).append_right _).trans hentries.symm)
  have happly : Pool.applyTransactions b'.transactions p.unspent =
      Pool.applyTransactions b.transactions p.unspent :=
    Prod.ext (hmissing'.trans hmissing.symm) hsame
  rw [applyBlock, applyBlock, happly]

end Clear

-- The inputs of a checked block go and its outputs come, so long as their numbers are new. What is
-- queued stays if all that it spends is still there.
theorem applyBlock_of_check (hcheck : b.check p.view = .ok ())
    (hnumbers : (b.transactions.map (·.id)).Nodup)
    (hfresh : ∀ t ∈ b.transactions, ∀ r, p.unspent.contains r = true → r.tx ≠ t.id)
    (hshort : ∀ t ∈ b.transactions, t.outputs.length < UInt32.size) :
    (p.applyBlock b).1 = 0 ∧
      (p.applyBlock b).2.unspent.entries.Perm
        (createdBy b.transactions ++ p.unspent.entries.filter fun e => decide (e.1 ∉ b.spent)) ∧
      (p.applyBlock b).2.unspent.total = p.unspent.total ∧
      (∀ b' : Block, b'.transactions.Perm b.transactions → p.applyBlock b' = p.applyBlock b) ∧
      (p.applyBlock b).2.pending = p.pending.filter fun t =>
        decide (∀ r ∈ t.inputs, (p.applyBlock b).2.unspent.contains r = true) := by
  have hclear := Clear.of_check hcheck hnumbers hfresh hshort
  obtain ⟨hmissing, hentries⟩ := hclear.applyTransactions
  refine ⟨hmissing, hentries, hclear.total hcheck, fun b' => hclear.applyBlock_of_perm, ?_⟩
  exact List.filter_congr fun t _ =>
    Bool.eq_iff_iff.mpr (List.all_eq_true.trans decide_eq_true_iff.symm)

-- The first of two transactions of one number is applied, and the second is still queued since the
-- output that it spends is still there.
theorem applyBlock_of_check_overlapping :
    (handingBlock ⟨0⟩ ⟨1⟩).check overlapping.pool.view = .ok () ∧
      (overlapping.pool.applyBlock (handingBlock ⟨0⟩ ⟨1⟩)).2.unspent.entries.Perm
        [(⟨⟨7⟩, 0⟩, ⟨100, ⟨1⟩⟩), (⟨⟨1⟩, 0⟩, ⟨100, ⟨1⟩⟩)] ∧
      (overlapping.pool.applyBlock (handingBlock ⟨0⟩ ⟨1⟩)).2.pending = [handing ⟨1⟩ ⟨0⟩] := by
  have hbuilt : handingBlock ⟨0⟩ ⟨1⟩ ∈
      (overlapping.call (.apply (handingBlock ⟨0⟩ ⟨1⟩))).built := List.mem_cons_self
  have hcheck : (handingBlock ⟨0⟩ ⟨1⟩).check overlapping.pool.view = .ok () :=
    check_handingBlock rfl
  obtain ⟨-, hentries, -, -, hpending⟩ := applyBlock_of_check hcheck
    (unrepeated_overlapping.nodup hbuilt) (unrepeated_overlapping.funded _ hbuilt) (by
      intro t ht
      rw [List.mem_singleton.mp ht]
      decide)
  exact ⟨hcheck, hentries, hpending⟩

end Pool

end QuorumLedger
