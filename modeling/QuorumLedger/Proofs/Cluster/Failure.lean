import QuorumLedger.Cluster
import QuorumLedger.Proofs.OneTime.Signing
import QuorumLedger.Proofs.Pool.Journal

namespace QuorumLedger

namespace Pool

theorem length_fill_le (view : LedgerView) (max : Nat) (queue : List Transaction) (d : Draft) :
    (fill view max queue d).2.length ≤ queue.length := by
  obtain ⟨taken, -, hqueue, -⟩ := fill_eq_append view max queue d
  have hlength := congrArg List.length hqueue
  rw [List.length_append] at hlength
  omega

-- The first of a queue is taken whenever the draft has room, be it to be dropped.
theorem fill_eq_self_iff {view : LedgerView} {max : Nat} {queue : List Transaction} {d : Draft} :
    (fill view max queue d).2 = queue ↔ queue = [] ∨ max ≤ d.transactions.length := by
  cases queue with
  | nil => simp [fill]
  | cons t rest =>
      by_cases hroom : d.transactions.length < max
      · have htaken : (fill view max (t :: rest) d).2.length ≤ rest.length := by
          rw [fill_cons, if_pos hroom]
          exact length_fill_le view max rest _
        have hnone : ¬ (t :: rest = [] ∨ max ≤ d.transactions.length) := by
          rintro (h | h)
          · cases h
          · omega
        refine iff_of_false (fun hsame => ?_) hnone
        rw [hsame, List.length_cons] at htaken
        omega
      · exact iff_of_true (by simp only [fill, hroom, if_false]) (.inr (by omega))

theorem pending_buildBlock_eq_iff {p : Pool} {height : Height} {parent : Digest} :
    (p.buildBlock height parent).2.pending = p.pending ↔
      p.pending = [] ∨ p.limits.maxBlockTransactions = 0 := by
  have hzero : p.limits.maxBlockTransactions.toNat ≤ 0 ↔ p.limits.maxBlockTransactions = 0 := by
    rw [Nat.le_zero, ← UInt64.toNat_zero, UInt64.toNat_inj]
  rw [← hzero]
  unfold buildBlock
  by_cases hempty : p.pending.isEmpty
  · exact iff_of_true (by simp only [hempty, if_true]) (.inl (List.isEmpty_iff.mp hempty))
  · simp only [hempty, Bool.false_eq_true, if_false]
    exact fill_eq_self_iff

end Pool

namespace Cluster

section Choice

variable {σ : Type} {c : Cluster σ} {e : ClusterError}

-- All that the choice of a block changes is that the front of the queue goes.
theorem nextBlock_cases (c : Cluster σ) :
    ∃ taken left, c.pool.pending = taken ++ left ∧ c.nextBlock.1.transactions.Sublist taken ∧
      c.nextBlock.2 = { c with pool := { c.pool with pending := left } } := by
  obtain ⟨taken, left, hqueue, hpool, hchosen⟩ := c.pool.buildBlock_cases c.height c.parent
  refine ⟨taken, left, hqueue, ?_, by simp only [nextBlock, hpool]⟩
  cases hblock : (c.pool.buildBlock c.height c.parent).1 with
  | none =>
      simp only [nextBlock, hblock, Option.getD_none]
      exact List.nil_sublist taken
  | some b =>
      simp only [nextBlock, hblock, Option.getD_some]
      exact hchosen b hblock

-- The end of a successful round fails only for want of a next height.
theorem conclude_fst {b : Block} {votes : List (ValidatorId × Option Digest)}
    (h : (c.conclude b votes).1 = .error e) : ∃ cause, e = .overflow cause := by
  unfold conclude at h
  cases hnext : c.height.next with
  | ok height => simp [hnext] at h
  | error cause =>
      simp only [hnext, Except.error.injEq] at h
      exact ⟨cause, h.symm⟩

end Choice

section Round

variable {σ : Type} [WordSource σ] {c c' : Cluster σ} {before after : Schedule} {e : ClusterError}

-- A round that fails has changed nothing but the validators and their network.
theorem runRound_error {b : Block} (h : c.runRound b before after = (.error e, c'))
    (hcause : ∀ cause, e ≠ .overflow cause) : ∃ committee, c' = { c with committee } := by
  unfold runRound at h
  simp only at h
  split at h
  · rename_i committee _
    exact ⟨committee, (Prod.ext_iff.mp h).2.symm⟩
  · rename_i committee _
    split at h
    · exact ⟨_, (Prod.ext_iff.mp h).2.symm⟩
    · obtain ⟨cause, hover⟩ := conclude_fst (congrArg Prod.fst h)
      exact absurd hover (hcause cause)

-- What assembly has looked at is not put back, so nothing is lost only if there was nothing to look
-- at.
theorem runNext_error (h : c.runNext before after = (.error e, c'))
    (hcause : ∀ cause, e ≠ .overflow cause) :
    c'.height = c.height ∧ c'.parent = c.parent ∧
      c'.pool = { c.pool with pending := c'.pool.pending } ∧
      (∃ taken, c.pool.pending = taken ++ c'.pool.pending ∧
        c.nextBlock.1.transactions.Sublist taken) ∧
      (c'.pool.pending = c.pool.pending ↔
        c.pool.pending = [] ∨ c.pool.limits.maxBlockTransactions = 0) := by
  obtain ⟨taken, left, hqueue, hchosen, hnext⟩ := c.nextBlock_cases
  have hround : c.nextBlock.2.runRound c.nextBlock.1 before after = (.error e, c') := h
  have hkept : c.nextBlock.2.pool.pending = c.pool.pending ↔
      c.pool.pending = [] ∨ c.pool.limits.maxBlockTransactions = 0 :=
    Pool.pending_buildBlock_eq_iff
  rw [hnext] at hround hkept
  obtain ⟨committee, rfl⟩ := runRound_error hround hcause
  exact ⟨rfl, rfl, rfl, ⟨taken, hqueue, hchosen⟩, hkept⟩

end Round

-- Two validators and a wallet for each.
def paired : Cluster ChaCha :=
  let validator (i : UInt64) (role : Role) : Replica :=
    .create ⟨i⟩ role ⟨2, 0⟩ [⟨0⟩, ⟨1⟩] ⟨.blank, fun _ => .ok .blank, 1⟩
  { settings := .ofCount 2
    committee :=
      { network := .create {} [⟨0⟩, ⟨1⟩] ⟨0⟩
        replicas := [validator 0 .proposer, validator 1 .regular]
        outbox := ∅
        delayMillis := 700
        now := 0 }
    pool := (Journal.opened {} [⟨0⟩, ⟨1⟩] 100).pool
    height := ⟨1⟩
    parent := Bytes32.zero }

theorem start_paired : start (.ofCount 2) {} (fun _ _ => .ok .blank) = .ok paired :=
  rfl

-- A payment is queued, and the round ends before anybody hears of the block.
theorem runNext_error_paired :
    (paired.submit (Journal.handing ⟨0⟩ ⟨1⟩)).1 = .ok () ∧
      (paired.submit (Journal.handing ⟨0⟩ ⟨1⟩)).2.pool.pending = [Journal.handing ⟨0⟩ ⟨1⟩] ∧
      ((paired.submit (Journal.handing ⟨0⟩ ⟨1⟩)).2.runNext ⟨[], 0⟩ ⟨[], 0⟩).1 =
        .error (.timeout ⟨1⟩ 0 2) ∧
      ((paired.submit (Journal.handing ⟨0⟩ ⟨1⟩)).2.runNext ⟨[], 0⟩ ⟨[], 0⟩).2.pool.pending = [] := by
  have hfails : ((paired.submit (Journal.handing ⟨0⟩ ⟨1⟩)).2.runNext ⟨[], 0⟩ ⟨[], 0⟩).1 =
      .error (.timeout ⟨1⟩ 0 2) := rfl
  have hqueued : (paired.submit (Journal.handing ⟨0⟩ ⟨1⟩)).2.pool.pending =
      [Journal.handing ⟨0⟩ ⟨1⟩] := rfl
  obtain ⟨-, -, -, ⟨taken, htaken, -⟩, hkept⟩ := runNext_error (Prod.ext hfails rfl) (by simp)
  refine ⟨rfl, hqueued, hfails, ?_⟩
  rw [hqueued] at htaken hkept
  have hlost := mt hkept.mp (by decide)
  cases taken with
  | nil => exact absurd htaken.symm hlost
  | cons t rest => exact (List.append_eq_nil_iff.mp (List.cons.inj htaken).2.symm).2

end Cluster

end QuorumLedger
