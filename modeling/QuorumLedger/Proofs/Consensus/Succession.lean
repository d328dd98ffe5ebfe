import QuorumLedger.Proofs.Consensus.Prompt

namespace QuorumLedger

-- What an honest replica hands out and the key that it holds after that. The first key is the one
-- that it held before.
structure Linked (v : ValidatorId) (first : PublicKey) (done : List Action) (last : PublicKey) :
    Prop where
  chained : Chained v first (messagesOf done) last
  toAll : ∀ m, .sendToLeader m ∉ done

namespace Linked

variable {v : ValidatorId} {first mid last : PublicKey}

theorem nil : Linked v first [] first :=
  ⟨rfl, by simp⟩

theorem append {now later : List Action} (h : Linked v first now mid)
    (h' : Linked v mid later last) : Linked v first (now ++ later) last := by
  refine ⟨?_, fun m hm => (List.mem_append.mp hm).elim (h.toAll m) (h'.toAll m)⟩
  rw [messagesOf_append]
  exact chained_append.mpr ⟨mid, h.chained, h'.chained⟩

theorem broadcast {m : Message} (h : m.SealedWith v first last) :
    Linked v first [.broadcast m] last :=
  ⟨chained_singleton.mpr h, by simp⟩

theorem delivered (d : Digest) (height : Height) : Linked v first [.delivered d height] first :=
  ⟨rfl, by simp⟩

end Linked

namespace Replica

-- A failed signature leaves the key as it was.
theorem sign_cases (r : Replica) (kind : MessageKind) (b : Block) (round : UInt16) :
    (∃ e signer, r.sign kind b round = (.error e, { r with signer }) ∧
        signer.next = r.signer.next) ∨
      ∃ m signer, r.sign kind b round = (.ok m, { r with signer }) ∧
        m.SealedWith r.id r.signer.next.publicKey signer.next.publicKey := by
  cases hsource : r.signer.source r.signer.attempts with
  | error e =>
      left
      refine ⟨e, { r.signer with attempts := r.signer.attempts + 1 }, ?_, rfl⟩
      simp only [sign, Block.signWith, Signer.rotate, hsource]
  | ok pair =>
      right
      refine ⟨⟨kind, b.withoutVotes.signBy r.signer.next.privateKey r.id pair.publicKey, r.id,
        round⟩, ⟨pair, r.signer.source, r.signer.attempts + 1⟩, ?_, _, rfl, ?_⟩
      · simp only [sign, Block.signWith, Signer.rotate, hsource]
      · rw [r.signer.next.publicKey_eq]
        exact decide_eq_true (PrivateKey.verify_sign _ _)

theorem linked_vote (r : Replica) (kind : MessageKind) (d : Digest) (round : UInt16) :
    Linked r.id r.signer.next.publicKey (r.vote kind d round).1
      (r.vote kind d round).2.signer.next.publicKey := by
  unfold vote
  cases r.blocks.get? d with
  | none => exact .nil
  | some b =>
      rcases r.sign_cases kind b round with ⟨e, signer, hsign, hnext⟩ | ⟨m, signer, hsign, hsealed⟩
      · simp only [hsign, hnext]
        exact .nil
      · simp only [hsign]
        exact .broadcast hsealed

theorem linked_propose (r : Replica) (b : Block) :
    Linked r.id r.signer.next.publicKey (r.answer (.propose b)).1
      (r.answer (.propose b)).2.signer.next.publicKey := by
  by_cases hrole : r.role.isProposer
  · rcases r.sign_cases .send b Round.send with ⟨e, signer, hsign, hnext⟩ |
      ⟨m, signer, hsign, hsealed⟩
    · simp only [answer, propose, hrole, hsign, if_true, hnext]
      exact .nil
    · simp only [answer, propose, hrole, hsign, if_true]
      exact .broadcast hsealed
  · simp only [answer, propose, hrole]
    exact .nil

theorem linked_act {r r' : Replica} {actions : List Action} (h : Act r actions r') :
    Linked r.id r.signer.next.publicKey actions r'.signer.next.publicKey := by
  cases h with
  | echo active pending => exact linked_vote { r with tally := r.tally.clearSend } _ _ _
  | @ready d round tally active mark call => exact linked_vote { r with tally } _ _ _
  | deliver active declared enough => exact .delivered _ _

theorem linked_outcome {r : Replica} (hproper : r.tally.Proper) (batch : List Message) :
    Linked r.id r.signer.next.publicKey (r.outcome batch).1
      (r.outcome batch).2.signer.next.publicKey :=
  (outcome_induct (I := fun _ done r' => r'.id = r.id ∧
      Linked r.id r.signer.next.publicKey done r'.signer.next.publicKey) batch [] []
    (fun _ _ _ _ _ _ h _ => h) (fun _ _ _ _ h => h)
    (fun _ _ _ _ _ h hact =>
      ⟨hact.sameSetup.id.trans h.1, h.2.append (h.1 ▸ linked_act hact)⟩)
    hproper ⟨rfl, .nil⟩ fun _ => ⟨rfl, .nil⟩).2

-- Every call goes on with the key that the one before left.
theorem linked_answer {r : Replica} (hproper : r.tally.Proper) (hhonest : r.role.IsHonest)
    (c : Call) :
    Linked r.id r.signer.next.publicKey (r.answer c).1 (r.answer c).2.signer.next.publicKey := by
  cases c with
  | startRun view => exact .nil
  | takeDelivered => exact .nil
  | propose b => exact r.linked_propose b
  | batch messages =>
      rw [answer_batch hproper, if_pos hhonest.participates, hhonest.shape]
      exact linked_outcome hproper messages

end Replica

end QuorumLedger
