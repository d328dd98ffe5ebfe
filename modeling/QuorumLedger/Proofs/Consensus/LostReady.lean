import QuorumLedger.Proofs.Consensus.Readiness

namespace QuorumLedger

namespace Replica

-- Whether a block is marked although no READY for it went out.
structure Lost (d : Digest) (done : List Action) (r : Replica) : Prop where
  marked : d ∈ r.tally.readySent
  unsent : done.countP (Action.isReadyFor d) = 0

variable {d : Digest} {done : List Action} {r : Replica} {P : Block → Prop}

-- No act marks a block twice, and only the act that marks it sends READY for it.
theorem Lost.act (h : r.Lost d done) (hstores : r.Stores P) {actions : List Action} {r' : Replica}
    (hact : Act r actions r') : r'.Lost d (done ++ actions) := by
  have hnone : d ∈ r'.tally.readySent ∧ actions.countP (Action.isReadyFor d) = 0 := by
    cases hact with
    | @echo d' active pending =>
        obtain ⟨signer, hnext⟩ :=
          vote_snd { r with tally := r.tally.clearSend } .echo d' Round.echo
        rw [hnext]
        exact ⟨h.marked, countP_vote_eq_zero hstores.clearSend (by simp)⟩
    | @ready d' round tally active mark call =>
        obtain ⟨hnew, rfl⟩ := Tally.markReady_eq_true mark
        obtain ⟨signer, hnext⟩ := vote_snd
          { r with tally := { r.tally with readySent := d' :: r.tally.readySent } } .ready d' round
        have hother : d' ≠ d := fun hd => hnew (hd ▸ h.marked)
        rw [hnext]
        exact ⟨List.mem_cons_of_mem d' h.marked,
          countP_vote_eq_zero (hstores.withReadySent _) fun _ => hother⟩
    | @deliver d' active declared enough => exact ⟨h.marked, rfl⟩
  exact ⟨hnone.1, by rw [List.countP_append, h.unsent, hnone.2]⟩

theorem Lost.outcome (h : r.Lost d done) (hstores : r.Stores fun _ => True)
    (batch : List Message) : (r.outcome batch).2.Lost d (done ++ (r.outcome batch).1) :=
  (hstores.outcome_induct (I := fun _ done r => r.Lost d done) (fun _ _ _ _ => trivial) batch []
    done (fun _ _ => trivial) (fun _ _ _ _ _ h _ => ⟨by simpa [counting] using h.marked, h.unsent⟩)
    (fun _ _ _ _ h => ⟨h.marked, h.unsent⟩) (fun _ _ _ _ _ hstores h hact => h.act hstores hact) h
    fun _ => ⟨h.marked, h.unsent⟩).2

theorem Lost.propose (h : r.Lost d done) (b : Block) :
    (r.answer (.propose b)).2.Lost d (done ++ (r.answer (.propose b)).1) := by
  obtain ⟨signer, hnext⟩ := r.propose_snd b
  have hnone : (r.answer (.propose b)).1.countP (Action.isReadyFor d) = 0 := by
    rw [List.countP_eq_zero]
    intro a ha
    obtain ⟨-, m, rfl, hm, -⟩ := mem_propose ha
    simp [Action.isReadyFor, Action.message?, hm.kind]
  rw [hnext]
  exact ⟨h.marked, by rw [List.countP_append, h.unsent, hnone]⟩

end Replica

namespace Session

variable {s : Session} {d : Digest}

theorem lost_answer (h : s.replica.Lost d s.done) (hgrounded : s.Grounded) {c : Replica.Call}
    (hc : c.isStart = false) : (s.answer c).replica.Lost d (s.answer c).done := by
  cases c with
  | startRun view => cases hc
  | takeDelivered =>
      rw [answer_takeDelivered]
      exact ⟨h.marked, h.unsent⟩
  | propose b =>
      rw [s.answer_eq hc]
      exact h.propose b
  | batch messages =>
      rw [answer_batch hgrounded.replica.stores.proper hgrounded.honest]
      exact h.outcome hgrounded.replica.stores messages

theorem lost_run (h : s.replica.Lost d s.done) (hgrounded : s.Grounded)
    {calls : List Replica.Call} (hcalls : ∀ c ∈ calls, c.isStart = false) :
    (s.run calls).replica.Lost d (s.run calls).done := by
  induction calls generalizing s with
  | nil => exact h
  | cons c rest ih =>
      obtain ⟨hc, hrest⟩ := List.forall_mem_cons.mp hcalls
      exact ih (lost_answer h hgrounded hc) (hgrounded.answer hc) hrest

-- Marks and READYs agree for as long as signing succeeds. Where they do not, whatever comes later
-- in the run leaves it at that, even if signing would succeed again.
theorem marked_of_run {seat : Seat} (hhonest : seat.role.IsHonest) (v : ValidatorId)
    (earlier : List Replica.Call) (view : LedgerView) (calls : List Replica.Call)
    (hcalls : ∀ c ∈ calls, c.isStart = false) :
    let opening := start ((seat.replica v).after earlier) view
    let s := opening.run calls
    (∀ d, (∃ a ∈ s.done, a.isReadyFor d = true) → d ∈ s.replica.tally.readySent) ∧
      (s.replica.signer.Succeeded opening.replica.signer →
        ∀ d ∈ s.replica.tally.readySent, ∃ a ∈ s.done, a.isReadyFor d = true) ∧
      ∀ d ∈ s.replica.tally.readySent, (∀ a ∈ s.done, a.isReadyFor d = false) →
        ∀ later : List Replica.Call, (∀ c ∈ later, c.isStart = false) →
          d ∈ (s.run later).replica.tally.readySent ∧
            ∀ a ∈ (s.run later).done, a.isReadyFor d = false := by
  intro opening s
  have h : s.Readiness seat.thresholds opening.replica.signer :=
    (readiness_start seat hhonest v earlier view).run hcalls
  refine ⟨fun d hsent => ?_, h.declared.sent, fun d hmarked hunsent later hlater => ?_⟩
  · by_contra hnew
    have hzero := Nat.le_zero.mp (Nat.le_trans (h.sparing d) (Nat.le_of_eq (if_neg hnew)))
    obtain ⟨a, ha, hready⟩ := hsent
    exact List.countP_eq_zero.mp hzero a ha hready
  · have hlost : s.replica.Lost d s.done :=
      ⟨hmarked, List.countP_eq_zero.mpr fun a ha => by simp [hunsent a ha]⟩
    have hstill := lost_run hlost h.grounded hlater
    refine ⟨hstill.marked, fun a ha => ?_⟩
    simpa using List.countP_eq_zero.mp hstill.unsent a ha

open Replica (pairSeat readyOf)

-- Only its first attempt to sign fails.
def hoarseSeat : Seat :=
  { pairSeat with signer := .ofKeyPair .blank fun n =>
      if n = 0 then .error (.entropy "dry") else .ok .blank }

-- A READY that calls for another.
def callingReady : List Replica.Call :=
  [.batch [readyOf ⟨0⟩]]

theorem lost_hoarse :
    let s := (start ((hoarseSeat.replica ⟨2⟩).after []) ⟨∅, []⟩).run callingReady
    Block.blank.id ∈ s.replica.tally.readySent ∧ s.done = [] := by
  decide +kernel

theorem marked_of_run_hoarse :
    hoarseSeat.role.IsHonest ∧ (∀ c ∈ callingReady, c.isStart = false) ∧
      ∀ later : List Replica.Call, (∀ c ∈ later, c.isStart = false) →
        ∀ a ∈ ((start ((hoarseSeat.replica ⟨2⟩).after []) ⟨∅, []⟩).run
          (callingReady ++ later)).done, a.isReadyFor Block.blank.id = false := by
  have hhonest : hoarseSeat.role.IsHonest := rfl
  have hcalls : ∀ c ∈ callingReady, c.isStart = false := by
    simp [callingReady, Replica.Call.isStart]
  obtain ⟨-, -, hlost⟩ := marked_of_run hhonest ⟨2⟩ [] ⟨∅, []⟩ callingReady hcalls
  obtain ⟨hmarked, hdone⟩ := lost_hoarse
  refine ⟨hhonest, hcalls, fun later hlater => ?_⟩
  have hnone := hlost Block.blank.id hmarked (by simp [hdone]) later hlater
  rw [run, List.foldl_append]
  exact hnone.2

theorem not_sent_of_marked :
    ¬ ∀ (seat : Seat) (v : ValidatorId) (earlier : List Replica.Call) (view : LedgerView)
        (calls : List Replica.Call), seat.role.IsHonest → (∀ c ∈ calls, c.isStart = false) →
      let s := (start ((seat.replica v).after earlier) view).run calls
      ∀ d, d ∈ s.replica.tally.readySent ↔ ∃ a ∈ s.done, a.isReadyFor d = true := by
  intro h
  obtain ⟨hmarked, hdone⟩ := lost_hoarse
  have hcalls : ∀ c ∈ callingReady, c.isStart = false := by
    simp [callingReady, Replica.Call.isStart]
  obtain ⟨a, ha, -⟩ := (h hoarseSeat ⟨2⟩ [] ⟨∅, []⟩ callingReady rfl hcalls Block.blank.id).mp
    hmarked
  rw [hdone] at ha
  cases ha

end Session

end QuorumLedger
