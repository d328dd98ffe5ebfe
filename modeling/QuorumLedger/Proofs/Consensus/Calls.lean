import QuorumLedger.Proofs.Consensus.Acts
import QuorumLedger.Proofs.Consensus.Shape

namespace QuorumLedger

namespace Thresholds

-- Whether every number of votes that is asked for can be computed in 64 bits.
structure Fit (t : Thresholds) : Prop where
  echo : t.validators.toNat + t.faulty.toNat + 1 < Checked.limit
  delivery : 2 * t.faulty.toNat + 1 < Checked.limit

theorem Fit.echoQuorum? {t : Thresholds} (h : t.Fit) : t.echoQuorum? = .ok t.echoQuorum := by
  have hsum := Checked.add_eq_ok (Nat.lt_of_succ_lt h.echo)
  unfold Thresholds.echoQuorum?
  rw [hsum]
  change (Checked.add (t.validators.toNat + t.faulty.toNat) 1).bind _ = _
  rw [Checked.add_eq_ok h.echo]
  rfl

theorem Fit.readyQuorum? {t : Thresholds} (h : t.Fit) : t.readyQuorum? = .ok t.readyQuorum := by
  have hdelivery := h.delivery
  exact Checked.add_eq_ok (by omega)

theorem Fit.deliveryThreshold? {t : Thresholds} (h : t.Fit) :
    t.deliveryThreshold? = .ok t.deliveryThreshold := by
  have htwice := Checked.mul_eq_ok (Nat.lt_of_succ_lt h.delivery)
  unfold Thresholds.deliveryThreshold?
  rw [htwice]
  exact Checked.add_eq_ok h.delivery

end Thresholds

namespace Replica

inductive Call where
  | startRun (view : LedgerView)
  | propose (b : Block)
  | batch (messages : List Message)
  | takeDelivered

def Call.isStart : Call → Bool
  | .startRun _ => true
  | _ => false

-- What a replica does when called. A failed proposal has no actions.
def answer (r : Replica) : Call → List Action × Replica
  | .startRun view => ([], r.startRun view)
  | .propose b =>
    match r.propose b with
    | (.ok actions, r) => (actions, r)
    | (.error _, r) => ([], r)
  | .batch messages => r.handleBatch messages
  | .takeDelivered => ([], r.takeDelivered.2)

-- What a replica has become after calls.
def after (r : Replica) (calls : List Call) : Replica :=
  calls.foldl (fun r c => (r.answer c).2) r

theorem propose_snd (r : Replica) (b : Block) :
    ∃ signer, (r.answer (.propose b)).2 = { r with signer } := by
  unfold answer propose
  by_cases h : r.role.isProposer
  · obtain ⟨signer, hs⟩ := r.sign_snd .send b Round.send
    refine ⟨signer, ?_⟩
    rw [← hs]
    simp only [h, if_true]
    cases r.sign .send b Round.send with
    | mk outcome r' => cases outcome <;> rfl
  · exact ⟨r.signer, by simp [h]⟩

theorem mem_propose {r : Replica} {b : Block} {a : Action} (h : a ∈ (r.answer (.propose b)).1) :
    r.role.isProposer ∧ ∃ m, a = .broadcast m ∧ r.Votes .send b m ∧ m.round = Round.send := by
  unfold answer propose at h
  by_cases hrole : r.role.isProposer
  · refine ⟨hrole, ?_⟩
    cases hs : r.sign .send b Round.send with
    | mk outcome r' =>
        cases outcome with
        | error e => simp [hrole, hs] at h
        | ok m =>
            have ha : a = .broadcast m := by simpa [hrole, hs] using h
            exact ⟨m, ha, votes_of_sign (by rw [hs])⟩
  · simp [hrole] at h

-- The messages that count among those that a call hands over.
def countedIn (r : Replica) : Call → List Message
  | .batch messages => if r.role.participates then r.counted messages else []
  | _ => []

theorem isSome_signer_of_mem_countedIn {r : Replica} {c : Call} {m : Message}
    (h : m ∈ r.countedIn c) : m.signer?.isSome := by
  cases c with
  | batch messages =>
      have hm : m ∈ r.counted messages := by
        simp only [countedIn] at h
        split at h
        · exact h
        · cases h
      exact isSome_signer_of_mem_counted hm
  | startRun view => cases h
  | propose b => cases h
  | takeDelivered => cases h

-- What a batch leads to, before the faults of the role make something of it.
def outcome (r : Replica) (batch : List Message) : List Action × Replica :=
  if r.isDelivered then ([], r.onMessages batch) else (r.processBatch batch).endOfRound

-- Before a delivery a batch is read from a state without a pending SEND, and acts follow.
theorem acts_outcome {r : Replica} (hproper : r.tally.Proper) (hactive : r.isDelivered = false)
    (batch : List Message) :
    Acts ({ r with tally := r.tally.clearSend }.onMessages batch) (r.outcome batch).1
      (r.outcome batch).2 := by
  have hread := onMessages_isDelivered { r with tally := r.tally.clearSend } batch
  have hproper' := onMessages_proper (r := { r with tally := r.tally.clearSend })
    ⟨hproper.echoes, hproper.readies, hproper.positive⟩ batch
  simp only [outcome, hactive]
  exact acts_endOfRound (hread.trans hactive) hproper'

theorem outcome_induct {I : List Message → List Action → Replica → Prop}
    (batch seen : List Message) (done : List Action) {r : Replica}
    (hcount : ∀ seen done r m s, m ∈ batch → I seen done r → r.Accepts m s →
      I (seen ++ [m]) done (r.counting m s))
    (hfollow : ∀ seen done r m, I seen done r → I seen done (r.following m))
    (hact : ∀ seen done r actions r', I seen done r → Act r actions r' →
      I seen (done ++ actions) r')
    (hproper : r.tally.Proper) (h : I seen done r)
    (hclear : r.isDelivered = false → I seen done { r with tally := r.tally.clearSend }) :
    I (seen ++ r.counted batch) (done ++ (r.outcome batch).1) (r.outcome batch).2 := by
  have hread : ∀ r, I seen done r → I (seen ++ r.counted batch) done (r.onMessages batch) :=
    fun r h => onMessages_induct (I := fun seen r => I seen done r) batch seen
      (fun seen r m s hm h hs => hcount seen done r m s hm h hs)
      (fun seen r m h => hfollow seen done r m h) h
  by_cases hdelivered : r.isDelivered
  · simpa [outcome, hdelivered] using hread r h
  · have hactive := Bool.eq_false_iff.mpr hdelivered
    have hprocessed : I (seen ++ r.counted batch) done
        ({ r with tally := r.tally.clearSend }.onMessages batch) := by
      rw [← r.counted_withTally r.tally.clearSend]
      exact hread _ (hclear hactive)
    exact (acts_outcome hproper hactive batch).induct done
      (fun done r actions r' h hact' => hact _ done r actions r' h hact') hprocessed

theorem outcome_sameSetup {r : Replica} (hproper : r.tally.Proper) (batch : List Message) :
    r.SameSetup (r.outcome batch).2 :=
  outcome_induct (I := fun _ _ r' => r.SameSetup r') batch [] []
    (fun _ _ r' m s _ h _ => h.trans (r'.counting_sameSetup m s))
    (fun _ _ r' m h => h.trans (r'.following_sameSetup m))
    (fun _ _ _ _ _ h hact => h.trans hact.sameSetup) hproper .rfl
    fun _ => ⟨⟨rfl, rfl, rfl, rfl⟩, rfl⟩

theorem outcome_finalized {r : Replica} (hproper : r.tally.Proper) {batch : List Message}
    (hend : (r.outcome batch).2.isDelivered = false) :
    (r.outcome batch).2.finalized = r.finalized :=
  outcome_induct (I := fun _ _ r' => r'.isDelivered = false → r'.finalized = r.finalized) batch []
    [] (fun _ _ _ _ _ _ h _ hactive => h (by simpa [counting, isDelivered] using hactive))
    (fun _ _ _ _ h => h)
    (fun _ _ _ _ _ h hact hactive => by
      have hbefore := hact.isDelivered_before
      exact (hact.frame.2.2 hactive).trans (h hbefore)) hproper (fun _ => rfl) (fun _ _ => rfl)
    hend

theorem isDelivered_of_outcome {r : Replica} {batch : List Message}
    (hend : (r.outcome batch).2.isDelivered = false) : r.isDelivered = false := by
  by_contra h
  rw [outcome, if_pos (Bool.of_not_eq_false h)] at hend
  exact h ((r.onMessages_isDelivered batch).symm.trans hend)

theorem handleBatch_of_crash {r : Replica} (h : r.role.participates = false)
    (batch : List Message) : r.handleBatch batch = ([], r) := by
  simp [handleBatch, h]

theorem handleBatch_of_participates {r : Replica} (hproper : r.tally.Proper)
    (h : r.role.participates = true) (batch : List Message) :
    r.handleBatch batch =
      (r.role.shape r.id r.committee (r.outcome batch).1, (r.outcome batch).2) := by
  have hsame := outcome_sameSetup hproper batch
  by_cases hdelivered : r.isDelivered
  · simp [handleBatch, outcome, h, hdelivered, Role.shape_nil]
  · simp only [outcome, hdelivered] at hsame
    simp only [handleBatch, outcome, h, hdelivered]
    rw [← hsame.id, ← hsame.role, ← hsame.committee]
    rfl

-- Of a committee whose quorums fit, the checked form of a batch never stops.
theorem handleBatch?_eq_ok {r : Replica} (h : r.thresholds.Fit) (batch : List Message) :
    r.handleBatch? batch = .ok (r.handleBatch batch) := by
  have hsame : (r.processBatch batch).thresholds = r.thresholds :=
    (onMessages_sameSetup { r with tally := r.tally.clearSend } batch).thresholds
  have hfit : (r.processBatch batch).thresholdsFit = .ok () := by
    unfold thresholdsFit
    rw [hsame, h.echoQuorum?, h.readyQuorum?, h.deliveryThreshold?]
    cases (r.processBatch batch).tally.readies.entries.isEmpty <;> rfl
  unfold handleBatch?
  split
  · rw [hfit]
    rfl
  · rfl

-- A batch is left unread by a role that does not take part, and shaped by the faults of another.
theorem answer_batch {r : Replica} (hproper : r.tally.Proper) (batch : List Message) :
    r.answer (.batch batch) =
      if r.role.participates then
        (r.role.shape r.id r.committee (r.outcome batch).1, (r.outcome batch).2)
      else ([], r) := by
  cases hrole : r.role.participates with
  | false => exact handleBatch_of_crash hrole batch
  | true => exact handleBatch_of_participates hproper hrole batch

theorem answer_sameSetup {r : Replica} (hproper : r.tally.Proper) {c : Call}
    (h : c.isStart = false) : r.SameSetup (r.answer c).2 := by
  cases c with
  | startRun view => cases h
  | propose b =>
      obtain ⟨signer, hnext⟩ := r.propose_snd b
      rw [hnext]
      exact ⟨⟨rfl, rfl, rfl, rfl⟩, rfl⟩
  | takeDelivered => exact ⟨⟨rfl, rfl, rfl, rfl⟩, rfl⟩
  | batch messages =>
      rw [answer_batch hproper]
      split
      · exact outcome_sameSetup hproper messages
      · exact .rfl

theorem answer_sameSeat {r : Replica} (hproper : r.tally.Proper) (c : Call) :
    r.SameSeat (r.answer c).2 := by
  cases hstart : c.isStart with
  | false => exact (answer_sameSetup hproper hstart).toSameSeat
  | true =>
      cases c with
      | startRun view => exact ⟨rfl, rfl, rfl, rfl⟩
      | propose b => cases hstart
      | batch messages => cases hstart
      | takeDelivered => cases hstart

end Replica

-- What a validator starts with.
structure Seat where
  role : Role
  thresholds : Thresholds
  committee : List ValidatorId
  signer : Signer

def Seat.replica (s : Seat) (v : ValidatorId) : Replica :=
  Replica.create v s.role s.thresholds s.committee s.signer

end QuorumLedger
