import QuorumLedger.Proofs.Consensus.Session

namespace QuorumLedger

namespace Thresholds

-- Whether the ECHOs among the messages counted call for a READY. Without any there is nothing to
-- look at, even where the quorum is zero.
def EnoughEchoes (t : Thresholds) (counted : List Message) (d : Digest) : Prop :=
  0 < (votesFor .echo d counted).length ∧ t.echoQuorum ≤ (votesFor .echo d counted).length

-- Why a READY may go out, and with which mark.
def CallsFor (t : Thresholds) (counted : List Message) (m : Message) : Prop :=
  (m.round = Round.readyFromEcho ∧ t.EnoughEchoes counted m.blockId) ∨
    (m.round = Round.readyFromReady ∧ ¬ t.EnoughEchoes counted m.blockId ∧
      t.readyQuorum ≤ (votesFor .ready m.blockId counted).length)

end Thresholds

theorem Tally.Proper.mem_echoed_iff {t : Tally} (h : t.Proper) {quorum : Nat} {d : Digest} :
    d ∈ t.echoed quorum ↔ 0 < t.echoCount d ∧ quorum ≤ t.echoCount d :=
  ⟨h.le_echoCount, fun hd => mem_echoed hd.1 hd.2⟩

namespace Replica

namespace Stores

variable {P : Block → Prop} {r : Replica} {a : Action}

theorem mem_declareReady (h : r.Stores P) {d : Digest} {round : UInt16}
    (ha : a ∈ (r.declareReady d round).1) :
    d ∉ r.tally.readySent ∧
      ∃ m, a = .broadcast m ∧ m.kind = .ready ∧ m.blockId = d ∧ m.round = round := by
  unfold declareReady at ha
  cases hmark : r.tally.markReady d with
  | mk new tally =>
      cases new with
      | false => simp [hmark] at ha
      | true =>
          obtain ⟨hnew, rfl⟩ := Tally.markReady_eq_true hmark
          simp only [hmark] at ha
          obtain ⟨m, b, rfl, hb, hm, hround⟩ := Replica.mem_vote ha
          exact ⟨hnew, m, rfl, hm.kind, hm.agrees.id.trans (h.blocks d b hb).1, hround⟩

theorem mem_readyFromEchoes (h : r.Stores P) {ds : List Digest}
    (ha : a ∈ (r.readyFromEchoes ds).1) :
    ∃ m, a = .broadcast m ∧ m.blockId ∈ ds ∧ m.round = Round.readyFromEcho := by
  induction ds generalizing r with
  | nil => cases ha
  | cons d rest ih =>
      unfold readyFromEchoes at ha
      rcases List.mem_append.mp ha with ha | ha
      · obtain ⟨-, m, rfl, -, hid, hround⟩ := h.mem_declareReady ha
        exact ⟨m, rfl, hid ▸ List.mem_cons_self, hround⟩
      · obtain ⟨signer, hnext⟩ := r.declareReady_snd d Round.readyFromEcho
        rw [hnext] at ha
        have hmarked := h.withReadySent (r.tally.readySent.insert d)
        obtain ⟨m, rfl, hid, hround⟩ := ih (hmarked.withSigner signer) ha
        exact ⟨m, rfl, List.mem_cons_of_mem d hid, hround⟩

theorem mem_amplify (h : r.Stores P) {d : Digest} {count : Nat} (ha : a ∈ (r.amplify d count).1) :
    d ∉ r.tally.readySent ∧ r.thresholds.readyQuorum ≤ count ∧
      ∃ m, a = .broadcast m ∧ m.blockId = d ∧ m.round = Round.readyFromReady := by
  unfold amplify at ha
  split at ha
  · rename_i hready
    obtain ⟨hnew, m, rfl, -, hid, hround⟩ := h.mem_declareReady ha
    exact ⟨hnew, hready, m, rfl, hid, hround⟩
  · cases ha

-- Going through the READY counts, only a block without a READY gets one.
theorem mem_readyFromReadies (h : r.Stores P) {counts : List (Digest × Nat)}
    (ha : a ∈ (r.readyFromReadies counts).1) {m : Message} (hm : a.message? = some m) :
    m.round = Round.readyFromReady ∧ m.blockId ∉ r.tally.readySent ∧
      ∃ e ∈ counts, e.1 = m.blockId ∧ r.thresholds.readyQuorum ≤ e.2 := by
  induction counts generalizing r with
  | nil => cases ha
  | cons e rest ih =>
      obtain ⟨d, count⟩ := e
      have hnow : a ∈ (r.amplify d count).1 → m.round = Round.readyFromReady ∧
          m.blockId ∉ r.tally.readySent ∧
          ∃ e ∈ (d, count) :: rest, e.1 = m.blockId ∧ r.thresholds.readyQuorum ≤ e.2 := by
        intro ha
        obtain ⟨hnew, hready, m', rfl, rfl, hround⟩ := h.mem_amplify ha
        obtain rfl := Option.some.inj hm
        exact ⟨hround, hnew, _, List.mem_cons_self, rfl, hready⟩
      rw [readyFromReadies_cons] at ha
      split at ha
      · rcases List.mem_append.mp ha with ha | ha
        · exact hnow ha
        · obtain rfl := List.mem_singleton.mp ha
          cases hm
      · rcases List.mem_append.mp ha with ha | ha
        · exact hnow ha
        · obtain ⟨signer, readySent, hold, -, hnext⟩ := r.amplify_snd d count
          rw [hnext] at ha
          obtain ⟨hround, hnew, e, he, hid, hready⟩ :=
            ih ((h.withReadySent readySent).withSigner signer) ha
          exact ⟨hround, fun hd => hnew (hold hd), e, List.mem_cons_of_mem _ he, hid, hready⟩

theorem ready_of_mem_endOfRound (h : r.Stores P) {m : Message} (ha : a ∈ r.endOfRound.1)
    (hm : a.message? = some m) (hkind : m.kind = .ready) :
    (m.round = Round.readyFromEcho ∧ m.blockId ∈ r.tally.echoed r.thresholds.echoQuorum) ∨
      (m.round = Round.readyFromReady ∧ m.blockId ∉ r.tally.echoed r.thresholds.echoQuorum ∧
        r.thresholds.readyQuorum ≤ r.tally.readyCount m.blockId) := by
  obtain ⟨signer, hecho⟩ := r.echoPending_snd
  obtain ⟨signer', readySent, hsent, -, hready⟩ := r.afterEchoes_eq
  rw [endOfRound_eq] at ha
  rcases List.mem_append.mp ha with ha | ha
  · -- the vote for a SEND is an ECHO
    unfold echoPending at ha
    split at ha
    · cases ha
    · obtain ⟨m', rfl, hecho', -⟩ := h.clearSend.mem_vote ha
      obtain rfl := Option.some.inj hm
      rw [hkind] at hecho'
      cases hecho'
  · rcases List.mem_append.mp ha with ha | ha
    · rw [hecho] at ha
      obtain ⟨m', rfl, hid, hround⟩ := (h.clearSend.withSigner signer).mem_readyFromEchoes ha
      obtain rfl := Option.some.inj hm
      exact .inl ⟨hround, hid⟩
    · rw [hready] at ha
      obtain ⟨hround, hnew, ⟨d, count⟩, he, rfl, hquorum⟩ :=
        ((h.clearSend.withReadySent readySent).withSigner signer').mem_readyFromReadies ha hm
      refine .inr ⟨hround, fun hd => hnew (hsent _ hd), ?_⟩
      rw [h.proper.readyCount_of_mem he]
      exact hquorum

end Stores

theorem Grounded.processBatch {seen : List Message} {done : List Action} {r : Replica}
    (h : r.Grounded seen done) (batch : List Message) :
    (r.processBatch batch).Grounded (seen ++ r.counted batch) done := by
  rw [← r.counted_withTally r.tally.clearSend]
  exact onMessages_induct (I := fun seen r => r.Grounded seen done) batch seen
    (fun _ _ m s _ h _ => h.counting m s) (fun _ _ m h => h.following m) h.clearSend

theorem Grounded.callsFor_of_mem_outcome {seen : List Message} {done : List Action} {r : Replica}
    (h : r.Grounded seen done) {batch : List Message} {a : Action} {m : Message}
    (ha : a ∈ (r.outcome batch).1) (hm : a.message? = some m) (hkind : m.kind = .ready) :
    r.thresholds.CallsFor (seen ++ r.counted batch) m := by
  unfold Replica.outcome at ha
  split at ha
  · cases ha
  · rename_i hactive
    have hprocessed := h.processBatch batch
    have hactive' : (r.processBatch batch).isDelivered = false :=
      (onMessages_isDelivered _ batch).trans (Bool.eq_false_iff.mpr hactive)
    have hsame : (r.processBatch batch).thresholds = r.thresholds :=
      (onMessages_sameSetup { r with tally := r.tally.clearSend } batch).thresholds
    obtain ⟨hechoes, hreadies⟩ := hprocessed.tallied hactive' m.blockId
    have hready := hprocessed.stores.ready_of_mem_endOfRound ha hm hkind
    rwa [hprocessed.stores.proper.mem_echoed_iff, hsame, hechoes, hreadies] at hready

end Replica

theorem Session.Grounded.callsFor_of_mem_answer {s : Session} (h : s.Grounded) {c : Replica.Call}
    (hc : c.isStart = false) {a : Action} {m : Message} (ha : a ∈ (s.replica.answer c).1)
    (hm : a.message? = some m) (hkind : m.kind = .ready) :
    (∃ batch, c = .batch batch) ∧ s.replica.thresholds.CallsFor (s.answer c).counted m := by
  cases c with
  | startRun view => cases hc
  | takeDelivered => cases ha
  | propose b =>
      obtain ⟨-, m', rfl, hvotes, -⟩ := Replica.mem_propose ha
      obtain rfl := Option.some.inj hm
      have hsend := hkind.symm.trans hvotes.kind
      cases hsend
  | batch messages =>
      refine ⟨⟨messages, rfl⟩, ?_⟩
      rw [Replica.answer_batch h.replica.stores.proper, h.honest.participates, h.honest.shape] at ha
      rw [answer_batch h.replica.stores.proper h.honest]
      exact h.replica.callsFor_of_mem_outcome ha hm hkind

end QuorumLedger
