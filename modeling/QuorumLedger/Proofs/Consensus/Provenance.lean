import Mathlib.Logic.Function.Basic
import QuorumLedger.Proofs.Consensus.Prompt

namespace QuorumLedger

-- A committee, what its proposers were asked to propose, and all that its members did so far.
structure Traffic where
  replicas : ValidatorId → Replica
  proposed : List Block
  done : List Action

namespace Traffic

def Sent (t : Traffic) (m : Message) : Prop :=
  ∃ a ∈ t.done, a.message? = some m

-- The block of a call to propose, if it is made to a proposer.
def newBlocks (r : Replica) : Replica.Call → List Block
  | .propose b => if r.role.isProposer then [b] else []
  | _ => []

def call (t : Traffic) (v : ValidatorId) (c : Replica.Call) : Traffic where
  replicas := Function.update t.replicas v ((t.replicas v).answer c).2
  proposed := t.proposed ++ newBlocks (t.replicas v) c
  done := t.done ++ ((t.replicas v).answer c).1

-- Whether a call hands over no message but such as members sent, under whatever sender.
def Relays (t : Traffic) : Replica.Call → Prop
  | .batch messages => ∀ m ∈ messages, ∃ sender, t.Sent { m with sender }
  | _ => True

def start (seats : ValidatorId → Seat) : Traffic :=
  ⟨fun v => (seats v).replica v, [], []⟩

-- The network may lose, repeat, reorder and relabel what members send, but makes up nothing.
inductive Reachable (seats : ValidatorId → Seat) : Traffic → Prop
  | start : Reachable seats (.start seats)
  | call {t : Traffic} {c : Replica.Call} (v : ValidatorId) (before : Reachable seats t)
      (relays : t.Relays c) : Reachable seats (t.call v c)

-- Whether some proposed block says what a block says.
def Proposed (t : Traffic) (b : Block) : Prop :=
  ∃ b' ∈ t.proposed, b.Agrees b'

theorem Proposed.of_agrees {t : Traffic} {a b : Block} (h : a.Agrees b) (hb : t.Proposed b) :
    t.Proposed a := by
  obtain ⟨b', hb', hagrees⟩ := hb
  exact ⟨b', hb', h.trans hagrees⟩

structure Sourced (t : Traffic) : Prop where
  replicas : ∀ v, (t.replicas v).Stores t.Proposed
  done : ∀ a ∈ t.done, a.Carries t.Proposed

-- What was proposed stays proposed.
theorem Proposed.call {t : Traffic} {b : Block} (h : t.Proposed b) (v : ValidatorId)
    (c : Replica.Call) : (t.call v c).Proposed b := by
  obtain ⟨b', hb', hagrees⟩ := h
  exact ⟨b', List.mem_append_left _ hb', hagrees⟩

-- A call brings a replica blocks that were proposed, be it just now.
theorem Sourced.brings {t : Traffic} (h : t.Sourced) {v : ValidatorId} {c : Replica.Call}
    (hrelays : t.Relays c) : (t.replicas v).Brings (t.call v c).Proposed c := by
  cases c with
  | startRun view => trivial
  | takeDelivered => trivial
  | propose b =>
      intro hrole
      exact ⟨b, by simp [Traffic.call, newBlocks, hrole], .rfl⟩
  | batch messages =>
      intro m hm
      obtain ⟨sender, a, ha, hmessage⟩ := hrelays m hm
      exact Proposed.call ((h.done a ha).of_message hmessage) v _

theorem Sourced.call {t : Traffic} (h : t.Sourced) (v : ValidatorId) {c : Replica.Call}
    (hrelays : t.Relays c) : (t.call v c).Sourced := by
  have hgrow : ∀ b, t.Proposed b → (t.call v c).Proposed b := fun _ hb => hb.call v c
  obtain ⟨hreplica, hactions⟩ := ((h.replicas v).mono hgrow).answer
    (fun _ _ hagrees hb => hb.of_agrees hagrees) (h.brings hrelays)
  constructor
  · intro w
    by_cases hw : w = v
    · subst hw
      simpa [Traffic.call] using hreplica
    · simpa [Traffic.call, hw] using (h.replicas w).mono hgrow
  · intro a ha
    rcases List.mem_append.mp ha with ha | ha
    · exact (h.done a ha).mono hgrow
    · exact hactions a ha

theorem sourced_of_reachable {seats : ValidatorId → Seat} {t : Traffic} (h : Reachable seats t) :
    t.Sourced := by
  induction h with
  | start => exact ⟨fun _ => Replica.stores_create _ _ _ _ _, by simp [Traffic.start]⟩
  | call v before relays ih => exact ih.call v relays

-- Every vote is the voter's own seal on the block that it holds, and the first copy of a block that
-- was received is the one that is kept, so contents pass from hand to hand unchanged.
theorem proposed_of_reachable {seats : ValidatorId → Seat} {t : Traffic} (h : Reachable seats t) :
    (∀ m, t.Sent m → ∃ b ∈ t.proposed, m.block.Agrees b) ∧
      (∀ v d b, (t.replicas v).blocks.get? d = some b →
        b.id = d ∧ ∃ b' ∈ t.proposed, b.Agrees b') ∧
      (∀ v, ∀ b ∈ (t.replicas v).deliveredBlocks, ∃ b' ∈ t.proposed, b.Agrees b') ∧
      ∀ d height, .delivered d height ∈ t.done →
        ∃ b ∈ t.proposed, b.id = d ∧ b.height = height := by
  have hsourced := sourced_of_reachable h
  refine ⟨?_, fun v d b hb => (hsourced.replicas v).blocks d b hb,
    fun v b hb => ((hsourced.replicas v).mem_deliveredBlocks hb).2, ?_⟩
  · rintro m ⟨a, ha, hm⟩
    exact (hsourced.done a ha).of_message hm
  · intro d height hd
    obtain ⟨b, ⟨b', hb', hagrees⟩, rfl, rfl⟩ := hsourced.done _ hd
    exact ⟨b', hb', hagrees.id.symm, hagrees.height.symm⟩

-- A proposer and three others.
def table (v : ValidatorId) : Seat :=
  ⟨if v = ⟨0⟩ then .proposer else .regular, {}, [⟨0⟩, ⟨1⟩, ⟨2⟩, ⟨3⟩], .steady .blank⟩

def opening : Traffic :=
  (start table).call ⟨0⟩ (.propose .blank)

-- One of the others gets the proposal.
def answering : Traffic :=
  opening.call ⟨1⟩ (.batch (messagesOf opening.done))

theorem proposed_answering :
    (∃ m, answering.Sent m ∧ m.kind = .send) ∧
      ∀ m, answering.Sent m → ∃ b ∈ answering.proposed, m.block.Agrees b := by
  have hopening : Reachable table opening := .call _ .start trivial
  have hreach : Reachable table answering := by
    refine .call _ hopening fun m hm => ⟨m.sender, ?_⟩
    exact mem_messagesOf.mp hm
  refine ⟨?_, (proposed_of_reachable hreach).1⟩
  obtain ⟨m, signer, -, hanswer, hvotes, -⟩ := Replica.propose_of_supplied
    (r := (table ⟨0⟩).replica ⟨0⟩) (Signer.steady_supplied _) rfl .blank
  have hdone : opening.done = [.broadcast m] := by
    simp only [opening, call, start, List.nil_append, hanswer]
  exact ⟨m, ⟨.broadcast m, List.mem_append_left _ (hdone ▸ List.mem_singleton_self _), rfl⟩,
    hvotes.kind⟩

end Traffic

end QuorumLedger
