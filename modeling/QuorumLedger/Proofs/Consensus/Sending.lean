import QuorumLedger.Proofs.Consensus.Stored

namespace QuorumLedger

namespace Action

-- Whether any message that goes out with an action is sealed by a validator.
def SealedBy (v : ValidatorId) (a : Action) : Prop :=
  ∀ m, a.message? = some m → m.signer? = some v

def isReadyFor (d : Digest) (a : Action) : Bool :=
  a.message?.any fun m => m.kind = .ready ∧ m.blockId = d

theorem sealedBy_relabel {u v : ValidatorId} {a : Action} (h : a.SealedBy v) :
    (a.relabel u).SealedBy v := by
  cases a with
  | broadcast m => rintro _ ⟨⟩; exact h m rfl
  | sendToLeader m => rintro _ ⟨⟩; exact h m rfl
  | delivered d height => rintro _ ⟨⟩

theorem sealedBy_toLeaderOnly {v : ValidatorId} {a : Action} (h : a.SealedBy v) :
    a.toLeaderOnly.SealedBy v := by
  cases a <;> exact h

theorem isReadyFor_relabel (d : Digest) (u : ValidatorId) (a : Action) :
    (a.relabel u).isReadyFor d = a.isReadyFor d := by
  cases a <;> rfl

theorem isReadyFor_toLeaderOnly (d : Digest) (a : Action) :
    a.toLeaderOnly.isReadyFor d = a.isReadyFor d := by
  cases a <;> rfl

end Action

namespace Replica

theorem sealedBy_of_mem_vote {r : Replica} {kind : MessageKind} {d : Digest} {round : UInt16}
    {a : Action} (h : a ∈ (r.vote kind d round).1) : a.SealedBy r.id := by
  obtain ⟨m, b, rfl, -, hm, -⟩ := mem_vote h
  rintro _ ⟨⟩
  exact hm.signer

theorem sealedBy_of_mem_act {r r' : Replica} {actions : List Action} (h : Act r actions r')
    {a : Action} (ha : a ∈ actions) : a.SealedBy r.id := by
  cases h with
  | echo active pending =>
      exact sealedBy_of_mem_vote (r := { r with tally := r.tally.clearSend }) ha
  | @ready d round tally active mark call =>
      exact sealedBy_of_mem_vote (r := { r with tally }) ha
  | deliver active declared enough =>
      obtain rfl := List.mem_singleton.mp ha
      rintro _ ⟨⟩

theorem sealedBy_of_mem_answer {r : Replica} (hproper : r.tally.Proper) {c : Call} {a : Action}
    (ha : a ∈ (r.answer c).1) : a.SealedBy r.id := by
  cases c with
  | startRun view => cases ha
  | takeDelivered => cases ha
  | propose b =>
      obtain ⟨-, m, rfl, hm, -⟩ := mem_propose ha
      rintro _ ⟨⟩
      exact hm.signer
  | batch messages =>
      rw [answer_batch hproper] at ha
      split at ha
      · have hall := outcome_induct
          (I := fun _ done r' => r'.id = r.id ∧ ∀ a ∈ done, a.SealedBy r.id) messages [] []
          (fun _ _ _ _ _ _ h _ => h) (fun _ _ _ _ h => h)
          (fun _ _ _ _ _ h hact => ⟨hact.sameSetup.id.trans h.1, fun a ha =>
            (List.mem_append.mp ha).elim (h.2 a) fun ha => h.1 ▸ sealedBy_of_mem_act hact ha⟩)
          hproper ⟨rfl, by simp⟩ (fun _ => ⟨rfl, by simp⟩)
        exact Role.forall_mem_shape (Q := fun a => a.SealedBy r.id)
          (fun _ _ => Action.sealedBy_relabel) (fun _ => Action.sealedBy_toLeaderOnly) hall.2 a ha
      · cases ha

theorem length_vote_le (r : Replica) (kind : MessageKind) (d : Digest) (round : UInt16) :
    (r.vote kind d round).1.length ≤ 1 := by
  unfold vote
  cases r.blocks.get? d with
  | none => exact Nat.zero_le 1
  | some b =>
      cases hs : r.sign kind b round with
      | mk outcome r' => cases outcome <;> simp [hs]

-- READYs sent for a block: one at most, and none before it was marked.
def Sparing (done : List Action) (r : Replica) : Prop :=
  ∀ d, done.countP (Action.isReadyFor d) ≤ r.tally.marks d

theorem countP_vote_eq_zero {P : Block → Prop} {r : Replica} (h : r.Stores P) {kind : MessageKind}
    {d d' : Digest} {round : UInt16} (hne : kind = .ready → d ≠ d') :
    (r.vote kind d round).1.countP (Action.isReadyFor d') = 0 := by
  rw [List.countP_eq_zero]
  intro a ha
  obtain ⟨m, rfl, rfl, rfl, -⟩ := h.mem_vote ha
  simpa [Action.isReadyFor, Action.message?] using hne

theorem Sparing.act {P : Block → Prop} {done : List Action} {r : Replica} (h : r.Sparing done)
    (hstores : r.Stores P) {actions : List Action} {r' : Replica} (hact : Act r actions r') :
    r'.Sparing (done ++ actions) := by
  intro d'
  have hd' := h d'
  rw [List.countP_append]
  cases hact with
  | @echo d active pending =>
      obtain ⟨signer, hnext⟩ := vote_snd { r with tally := r.tally.clearSend } .echo d Round.echo
      rw [hnext, countP_vote_eq_zero hstores.clearSend (by simp)]
      exact hd'
  | @ready d round tally active mark call =>
      obtain ⟨hnew, rfl⟩ := Tally.markReady_eq_true mark
      obtain ⟨signer, hnext⟩ := vote_snd
        { r with tally := { r.tally with readySent := d :: r.tally.readySent } } .ready d round
      rw [hnext]
      rw [Tally.marks_mark hnew]
      refine Nat.add_le_add hd' ?_
      by_cases hd : d = d'
      · rw [if_pos hd]
        exact Nat.le_trans List.countP_le_length (length_vote_le _ .ready d round)
      · rw [countP_vote_eq_zero (hstores.withReadySent _) fun _ => hd]
        exact Nat.zero_le _
  | @deliver d active declared enough => exact hd'

theorem Sparing.answer {P : Block → Prop} (hP : ∀ a b : Block, a.Agrees b → P b → P a)
    {done : List Action} {r : Replica} (h : r.Sparing done) (hstores : r.Stores P) {c : Call}
    (hc : c.isStart = false) (hbrings : r.Brings P c) :
    (r.answer c).2.Sparing (done ++ (r.answer c).1) := by
  cases c with
  | startRun view => cases hc
  | takeDelivered =>
      change r.takeDelivered.2.Sparing (done ++ [])
      rw [List.append_nil]
      exact h
  | propose b =>
      intro d
      obtain ⟨signer, hnext⟩ := r.propose_snd b
      have hzero : ((r.answer (.propose b)).1).countP (Action.isReadyFor d) = 0 := by
        rw [List.countP_eq_zero]
        intro a ha
        obtain ⟨-, m, rfl, hm, -⟩ := mem_propose ha
        simp [Action.isReadyFor, Action.message?, hm.kind]
      rw [List.countP_append, hzero, hnext]
      exact h d
  | batch messages =>
      rw [answer_batch hstores.proper]
      split
      · have hall := hstores.outcome_induct (I := fun _ done r => r.Sparing done) hP messages []
          done hbrings
          (fun _ _ _ m s h _ => by simpa [Sparing, counting, Tally.marks_take] using h)
          (fun _ _ _ _ h => h) (fun _ _ _ _ _ hstores h hact => h.act hstores hact) h fun _ => h
        intro d
        have hd := hall.2 d
        rw [List.countP_append] at hd ⊢
        have hshape := Role.countP_shape_le (Action.isReadyFor_relabel d)
          (Action.isReadyFor_toLeaderOnly d) r.role r.id r.committee (r.outcome messages).1
        exact Nat.le_trans (Nat.add_le_add_left hshape _) hd
      · simpa using h

end Replica

end QuorumLedger
