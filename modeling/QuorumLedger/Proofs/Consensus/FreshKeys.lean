import QuorumLedger.Proofs.Consensus.Calls
import QuorumLedger.Proofs.OneTime.Signing

namespace QuorumLedger

def Seal.unkeyed (s : Seal) : Seal :=
  ⟨s.signer, ⟨.replicate keyBits .zero⟩, none⟩

def Message.unkeyed (m : Message) : Message :=
  { m with block := { m.block with sealedBy := m.block.sealedBy.map Seal.unkeyed } }

theorem Message.unkeyed_signBy (kind : MessageKind) (b : Block) (key : PrivateKey)
    (signer : ValidatorId) (nextKey : Option PublicKey) (sender : ValidatorId) (round : UInt16) :
    Message.unkeyed ⟨kind, b.signBy key signer nextKey, sender, round⟩ =
      ⟨kind, { b with sealedBy := some ⟨signer, ⟨.replicate keyBits .zero⟩, none⟩ }, sender,
        round⟩ :=
  rfl

namespace Action

-- What an action says whatever the keys of the replica are.
def unkeyed : Action → Action
  | broadcast m => broadcast m.unkeyed
  | sendToLeader m => sendToLeader m.unkeyed
  | delivered d height => delivered d height

theorem unkeyed_relabel (v : ValidatorId) (a : Action) :
    (a.relabel v).unkeyed = a.unkeyed.relabel v := by
  cases a <;> rfl

theorem unkeyed_toLeaderOnly (a : Action) : a.toLeaderOnly.unkeyed = a.unkeyed.toLeaderOnly := by
  cases a <;> rfl

theorem isSend_unkeyed (a : Action) : a.unkeyed.isSend = a.isSend := by
  cases a <;> rfl

end Action

-- Faults look at no key.
theorem Role.map_unkeyed_shape (r : Role) (self : ValidatorId) (committee : List ValidatorId)
    (actions : List Action) :
    (r.shape self committee actions).map Action.unkeyed =
      r.shape self committee (actions.map Action.unkeyed) := by
  have haltered : ∀ (victim : Option ValidatorId) (a : Action),
      (altered r.faults victim a).unkeyed = altered r.faults victim a.unkeyed := by
    intro victim a
    unfold altered
    cases r.faults.impersonate <;> cases r.faults.partialSend <;> cases victim <;>
      simp [Action.unkeyed_relabel, Action.unkeyed_toLeaderOnly]
  rw [shape_eq, shape_eq]
  split
  · rw [List.filter_map]
    simp only [Function.comp_def, Action.isSend_unkeyed]
  · split <;> simp [Function.comp_def, haltered]

-- Whether the same attempts fail from now on.
def Signer.FailsAlike (s s' : Signer) : Prop :=
  ∀ n, (s.source (s.attempts + n)).isOk = (s'.source (s'.attempts + n)).isOk

-- Any two signers that never fail.
theorem Signer.Supplied.failsAlike {s s' : Signer} (h : s.Supplied) (h' : s'.Supplied) :
    s.FailsAlike s' := by
  intro n
  obtain ⟨pair, hpair⟩ := h (s.attempts + n)
  obtain ⟨pair', hpair'⟩ := h' (s'.attempts + n)
  rw [hpair, hpair']
  rfl

theorem Signer.FailsAlike.rotate {s s' : Signer} (h : s.FailsAlike s') :
    s.rotate.1.isOk = s'.rotate.1.isOk ∧ s.rotate.2.FailsAlike s'.rotate.2 := by
  have hnow := h 0
  have hlater : ∀ n, (s.source (s.attempts + 1 + n)).isOk =
      (s'.source (s'.attempts + 1 + n)).isOk := by
    intro n
    rw [Nat.add_assoc, Nat.add_assoc]
    exact h (1 + n)
  simp only [Nat.add_zero] at hnow
  unfold Signer.rotate
  cases hs : s.source s.attempts <;> cases hs' : s'.source s'.attempts <;> rw [hs, hs'] at hnow
  · exact ⟨.refl _, hlater⟩
  · cases hnow
  · cases hnow
  · exact ⟨.refl _, hlater⟩

namespace Replica

-- Two replicas that differ in nothing but their signers.
def Alike (r r' : Replica) : Prop :=
  ∃ signer, r.signer.FailsAlike signer ∧ r' = { r with signer }

-- Two answers that differ in nothing but the keys.
structure Rekeyed (x y : List Action × Replica) : Prop where
  actions : y.1.map Action.unkeyed = x.1.map Action.unkeyed
  replica : x.2.Alike y.2

variable {r r' : Replica}

theorem Alike.nil (h : r.Alike r') : Rekeyed ([], r) ([], r') :=
  ⟨.refl _, h⟩

theorem Alike.withTally (h : r.Alike r') (tally : Tally) :
    { r with tally }.Alike { r' with tally } := by
  obtain ⟨signer, hfails, rfl⟩ := h
  exact ⟨signer, hfails, .refl _⟩

theorem Rekeyed.append {x y later later' : List Action × Replica} (h : Rekeyed x y)
    (h' : Rekeyed later later') : Rekeyed (x.1 ++ later.1, later.2) (y.1 ++ later'.1, later'.2) :=
  ⟨by rw [List.map_append, List.map_append, h.actions, h'.actions], h'.replica⟩

namespace Alike

theorem frame (h : r.Alike r') :
    r.SameSeat r' ∧ r'.tally = r.tally ∧ r'.blocks = r.blocks := by
  obtain ⟨signer, -, rfl⟩ := h
  exact ⟨⟨rfl, rfl, rfl, rfl⟩, rfl, rfl⟩

-- The same votes can be signed, and they say the same.
theorem sign (h : r.Alike r') (kind : MessageKind) (b : Block) (round : UInt16) :
    (r'.sign kind b round).1.toOption.map Message.unkeyed =
        (r.sign kind b round).1.toOption.map Message.unkeyed ∧
      (r.sign kind b round).2.Alike (r'.sign kind b round).2 := by
  obtain ⟨signer, hfails, rfl⟩ := h
  obtain ⟨hsame, hnext⟩ := hfails.rotate
  unfold Replica.sign Block.signWith
  cases hrotate : r.signer.rotate with
  | mk outcome next =>
      cases hrotate' : signer.rotate with
      | mk outcome' next' =>
          rw [hrotate, hrotate'] at hsame hnext
          cases outcome <;> cases outcome'
          · exact ⟨rfl, next', hnext, rfl⟩
          · cases hsame
          · cases hsame
          · refine ⟨?_, next', hnext, rfl⟩
            simp only [Except.toOption, Option.map_some, Message.unkeyed_signBy]

theorem vote (h : r.Alike r') (kind : MessageKind) (d : Digest) (round : UInt16) :
    Rekeyed (r.vote kind d round) (r'.vote kind d round) := by
  obtain ⟨-, -, hblocks⟩ := h.frame
  unfold Replica.vote
  rw [hblocks]
  cases r.blocks.get? d with
  | none => exact h.nil
  | some b =>
      obtain ⟨hsame, hnext⟩ := h.sign kind b round
      cases hs : r.sign kind b round with
      | mk outcome next =>
          cases hs' : r'.sign kind b round with
          | mk outcome' next' =>
              rw [hs, hs'] at hsame hnext
              simp only [hs, hs']
              cases outcome <;> cases outcome'
              · exact hnext.nil
              · cases hsame
              · cases hsame
              · refine ⟨?_, hnext⟩
                simp only [List.map_cons, List.map_nil, Action.unkeyed, Option.some.inj hsame]

theorem echoPending (h : r.Alike r') : Rekeyed r.echoPending r'.echoPending := by
  obtain ⟨-, htally, -⟩ := h.frame
  unfold Replica.echoPending
  rw [htally]
  cases r.tally.pendingSend with
  | none => exact h.nil
  | some d => exact (h.withTally r.tally.clearSend).vote .echo d Round.echo

theorem declareReady (h : r.Alike r') (d : Digest) (round : UInt16) :
    Rekeyed (r.declareReady d round) (r'.declareReady d round) := by
  obtain ⟨-, htally, -⟩ := h.frame
  unfold Replica.declareReady
  rw [htally]
  cases r.tally.markReady d with
  | mk new tally =>
      cases new with
      | false => exact h.nil
      | true => exact (h.withTally tally).vote .ready d round

theorem readyFromEchoes (h : r.Alike r') (ds : List Digest) :
    Rekeyed (r.readyFromEchoes ds) (r'.readyFromEchoes ds) := by
  induction ds generalizing r r' with
  | nil => exact h.nil
  | cons d rest ih =>
      have hnow := h.declareReady d Round.readyFromEcho
      exact hnow.append (ih hnow.replica)

theorem deliver (h : r.Alike r') (d : Digest) : Rekeyed (r.deliver d) (r'.deliver d) := by
  obtain ⟨signer, hfails, rfl⟩ := h
  exact ⟨.refl _, signer, hfails, .refl _⟩

theorem amplify (h : r.Alike r') (d : Digest) (count : Nat) :
    Rekeyed (r.amplify d count) (r'.amplify d count) := by
  obtain ⟨hseat, -, -⟩ := h.frame
  unfold Replica.amplify
  rw [hseat.thresholds]
  split
  · exact h.declareReady d Round.readyFromReady
  · exact h.nil

theorem readyFromReadies (h : r.Alike r') (counts : List (Digest × Nat)) :
    Rekeyed (r.readyFromReadies counts) (r'.readyFromReadies counts) := by
  induction counts generalizing r r' with
  | nil => exact h.nil
  | cons e rest ih =>
      obtain ⟨d, count⟩ := e
      have hnow := h.amplify d count
      rw [readyFromReadies_cons, readyFromReadies_cons, hnow.replica.frame.1.thresholds]
      split
      · exact hnow.append (hnow.replica.deliver d)
      · exact hnow.append (ih hnow.replica)

theorem endOfRound (h : r.Alike r') : Rekeyed r.endOfRound r'.endOfRound := by
  have hecho := h.echoPending
  have hready := hecho.replica.readyFromEchoes
    (r.echoPending.2.tally.echoed r.echoPending.2.thresholds.echoQuorum)
  have hmore := hready.replica.readyFromReadies
    (r.echoPending.2.readyFromEchoes
      (r.echoPending.2.tally.echoed r.echoPending.2.thresholds.echoQuorum)).2.tally.readies.entries
  unfold Replica.endOfRound
  dsimp only
  rw [hecho.replica.frame.1.thresholds, hecho.replica.frame.2.1, hready.replica.frame.2.1]
  exact hecho.append (hready.append hmore)

theorem onMessage (h : r.Alike r') (m : Message) : (r.onMessage m).2.Alike (r'.onMessage m).2 := by
  obtain ⟨signer, hfails, rfl⟩ := h
  by_cases haccepts : ∃ s, r.Accepts m s
  · obtain ⟨s, hs⟩ := haccepts
    have hs' : { r with signer }.Accepts m s := ⟨hs.sealedBy, hs.accepted, hs.pending, hs.passes⟩
    rw [onMessage_of_accepts hs, onMessage_of_accepts hs']
    exact ⟨signer, hfails, .refl _⟩
  · have hno := not_exists.mp haccepts
    have hno' : ∀ s, ¬ { r with signer }.Accepts m s := fun s hs =>
      hno s ⟨hs.sealedBy, hs.accepted, hs.pending, hs.passes⟩
    rw [onMessage_of_not_accepts hno, onMessage_of_not_accepts hno']
    exact ⟨signer, hfails, .refl _⟩

theorem onMessages (h : r.Alike r') (batch : List Message) :
    (r.onMessages batch).Alike (r'.onMessages batch) := by
  induction batch generalizing r r' with
  | nil => exact h
  | cons m rest ih => exact ih (h.onMessage m)

theorem handleBatch (h : r.Alike r') (batch : List Message) :
    Rekeyed (r.handleBatch batch) (r'.handleBatch batch) := by
  obtain ⟨hseat, htally, -⟩ := h.frame
  have hdelivered : r'.isDelivered = r.isDelivered := congrArg Tally.isDelivered htally
  have hround : Rekeyed (r.processBatch batch).endOfRound (r'.processBatch batch).endOfRound := by
    unfold processBatch
    rw [htally]
    exact ((h.withTally r.tally.clearSend).onMessages batch).endOfRound
  obtain ⟨hafter, -, -⟩ := hround.replica.frame
  unfold Replica.handleBatch
  rw [hseat.role, hdelivered]
  split
  · exact h.nil
  · split
    · exact (h.onMessages batch).nil
    · refine ⟨?_, hround.replica⟩
      dsimp only
      rw [Role.map_unkeyed_shape, Role.map_unkeyed_shape, hround.actions, hafter.role, hafter.id,
        hafter.committee]

end Alike

-- The actions of one batch after the other.
def handleBatches (r : Replica) : List (List Message) → List Action × Replica
  | [] => ([], r)
  | batch :: rest =>
    let (now, r) := r.handleBatch batch
    let (later, r) := handleBatches r rest
    (now ++ later, r)

theorem Alike.handleBatches (h : r.Alike r') (batches : List (List Message)) :
    Rekeyed (r.handleBatches batches) (r'.handleBatches batches) := by
  induction batches generalizing r r' with
  | nil => exact h.nil
  | cons batch rest ih =>
      have hnow := h.handleBatch batch
      exact hnow.append (ih hnow.replica)

end Replica

end QuorumLedger
