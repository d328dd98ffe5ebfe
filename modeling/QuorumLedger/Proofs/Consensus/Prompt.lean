import QuorumLedger.Proofs.Consensus.Following
import QuorumLedger.Proofs.Consensus.Session

namespace QuorumLedger

def messagesOf (done : List Action) : List Message :=
  done.filterMap Action.message?

theorem mem_messagesOf {done : List Action} {m : Message} :
    m ∈ messagesOf done ↔ ∃ a ∈ done, a.message? = some m :=
  List.mem_filterMap

theorem messagesOf_append (xs ys : List Action) :
    messagesOf (xs ++ ys) = messagesOf xs ++ messagesOf ys :=
  List.filterMap_append

namespace Replica

theorem sign_of_supplied {r : Replica} (h : r.signer.Supplied) (kind : MessageKind) (b : Block)
    (round : UInt16) :
    ∃ (m : Message) (signer : Signer), signer.Supplied ∧
      r.sign kind b round = (.ok m, { r with signer }) ∧ r.Votes kind b m ∧
        m.SealedWith r.id r.signer.next.publicKey signer.next.publicKey := by
  obtain ⟨signer, hsupplied, hrotate⟩ := h.rotate
  have hsign : r.sign kind b round =
      (.ok ⟨kind, b.withoutVotes.signBy r.signer.next.privateKey r.id signer.next.publicKey, r.id,
        round⟩, { r with signer }) := by
    simp only [sign, Block.signWith, hrotate]
  refine ⟨_, signer, hsupplied, hsign, (votes_of_sign (by rw [hsign])).1, _, rfl, ?_⟩
  rw [r.signer.next.publicKey_eq]
  exact decide_eq_true (PrivateKey.verify_sign _ _)

theorem vote_of_supplied {r : Replica} (h : r.signer.Supplied) {d : Digest}
    (hd : (r.blocks.get? d).isSome) (kind : MessageKind) (round : UInt16) :
    ∃ (m : Message) (signer : Signer), signer.Supplied ∧
      r.vote kind d round = ([.broadcast m], { r with signer }) ∧ m.kind = kind ∧
        m.SealedWith r.id r.signer.next.publicKey signer.next.publicKey := by
  obtain ⟨b, hb⟩ := Option.isSome_iff_exists.mp hd
  obtain ⟨m, signer, hsupplied, hsign, hvotes, hsealed⟩ := sign_of_supplied h kind b round
  exact ⟨m, signer, hsupplied, by simp only [vote, hb, hsign], hvotes.kind, hsealed⟩

theorem propose_of_supplied {r : Replica} (h : r.signer.Supplied) (hrole : r.role.isProposer = true)
    (b : Block) :
    ∃ (m : Message) (signer : Signer), signer.Supplied ∧
      r.answer (.propose b) = ([.broadcast m], { r with signer }) ∧ r.Votes .send b m ∧
        m.SealedWith r.id r.signer.next.publicKey signer.next.publicKey := by
  obtain ⟨m, signer, hsupplied, hsign, hvotes, hsealed⟩ := sign_of_supplied h .send b Round.send
  exact ⟨m, signer, hsupplied, by simp only [answer, propose, hrole, hsign, if_true], hvotes,
    hsealed⟩

-- The first SEND that counts in a run is echoed, and nothing else comes of it.
theorem outcome_of_firstSend {r : Replica} (hsupplied : r.signer.Supplied)
    (hfresh : r.tally = .start) {m : Message} {s : Seal} (hs : r.Accepts m s)
    (hkind : m.kind = .send) :
    ∃ m', (r.outcome [m]).1 = [.broadcast m'] ∧ m'.kind = .echo := by
  have hread : r.processBatch [m] = r.counting m s := by
    have hclear : { r with tally := r.tally.clearSend } = r := by
      cases r
      cases hfresh
      rfl
    rw [processBatch, hclear, onMessages, List.foldl_cons, onMessage_of_accepts hs]
    rfl
  obtain ⟨m', signer, -, hvote, hecho, -⟩ := vote_of_supplied
    (r := { r.counting m s with tally := (r.counting m s).tally.clearSend }) hsupplied
    (d := m.blockId) (by simp [counting]) .echo Round.echo
  refine ⟨m', ?_, hecho⟩
  have hactive : r.isDelivered = false := by rw [isDelivered, hfresh]; rfl
  have htally : (r.counting m s).tally = ⟨∅, ∅, [], some m.blockId, none, .voting⟩ := by
    simp only [counting, hkind, hfresh]
    rfl
  have hpending : (r.counting m s).echoPending.1 = [.broadcast m'] := by
    simp only [echoPending, htally] at hvote ⊢
    rw [hvote]
  simp only [outcome, hactive, hread, endOfRound_eq, hpending, htally]
  rfl

-- A proposer that gets back what it proposed echoes it.
theorem echo_of_propose {r : Replica} (hsupplied : r.signer.Supplied) (hrole : r.role = .proposer)
    (hfresh : r.tally = .start) (hunheard : r.keyChain.recorded.get? r.id = none) {b : Block}
    (hb : b.check r.view = .ok ()) (hnew : b.id ∉ r.finalized) :
    ∃ send echo : Message, (r.answer (.propose b)).1 = [.broadcast send] ∧ send.kind = .send ∧
      ((r.answer (.propose b)).2.answer (.batch [send])).1 = [.broadcast echo] ∧
        echo.kind = .echo := by
  obtain ⟨send, signer, hsupplied', hanswer, hvotes, signature, hsealed, -⟩ :=
    propose_of_supplied hsupplied (by rw [hrole]; rfl) b
  have hvalid : send.block.isValid r.view = true := by
    rw [hvotes.agrees.isValid]
    exact Block.isValid_iff.mpr hb
  have hid : send.blockId = b.id := hvotes.agrees.id
  have haccepts : ({ r with signer } : Replica).Accepts send
      ⟨r.id, signature, some signer.next.publicKey⟩ :=
    accepts_of_firstContact hsealed hunheard (hid ▸ hnew) hvalid
  obtain ⟨echo, hecho, hkind⟩ :=
    outcome_of_firstSend (r := { r with signer }) hsupplied' hfresh haccepts hvotes.kind
  have hhonest : r.role.IsHonest := by rw [hrole]; rfl
  rw [hanswer]
  refine ⟨send, echo, rfl, hvotes.kind, ?_, hkind⟩
  rw [answer_batch (r := { r with signer }) (hfresh ▸ Tally.proper_start), hhonest.shape,
    hhonest.participates]
  exact hecho

-- What was sent and delivered follows from what was counted, with nothing left out. The first key
-- is the one that the replica had at the start.
structure Prompt (first : PublicKey) (seen : List Message) (done : List Action) (r : Replica) :
    Prop where
  supplied : r.signer.Supplied
  chained : Chained r.id first (messagesOf done) r.signer.next.publicKey
  toAll : ∀ m, .sendToLeader m ∉ done
  ready : ∀ d ∈ r.tally.readySent, ∃ m, .broadcast m ∈ done ∧ m.kind = .ready ∧ m.blockId = d
  delivered : r.isDelivered = true → ∃ d height, r.tally.voted = some d ∧
    d ∈ r.tally.readySent ∧ .delivered d height ∈ done
  echo : r.isDelivered = false → (∃ m ∈ seen, m.kind = .send) →
    r.tally.pendingSend.isSome ∨ ∃ m, .broadcast m ∈ done ∧ m.kind = .echo

namespace Prompt

variable {first : PublicKey} {seen : List Message} {done : List Action} {r : Replica}

theorem start (r : Replica) (h : r.signer.Supplied) (view : LedgerView) :
    (r.startRun view).Prompt r.signer.next.publicKey [] [] where
  supplied := h
  chained := rfl
  toAll := by simp
  ready := by simp [startRun, Tally.start]
  delivered := by simp [startRun, isDelivered, Tally.isDelivered, Tally.start]
  echo := by simp

theorem following (h : r.Prompt first seen done) (m : Message) :
    (r.following m).Prompt first seen done :=
  ⟨h.supplied, h.chained, h.toAll, h.ready, h.delivered, h.echo⟩

-- The SEND of an earlier batch was echoed in that batch.
theorem clearSend (h : r.Prompt first seen done) (hpending : r.tally.pendingSend = none) :
    { r with tally := r.tally.clearSend }.Prompt first seen done :=
  ⟨h.supplied, h.chained, h.toAll, h.ready, h.delivered, fun hactive hsend =>
    .inr ((h.echo hactive hsend).resolve_left (by simp [hpending]))⟩

theorem counting (h : r.Prompt first seen done) (m : Message) (s : Seal) :
    (r.counting m s).Prompt first (seen ++ [m]) done where
  supplied := h.supplied
  chained := h.chained
  toAll := h.toAll
  ready := by simpa [Replica.counting] using h.ready
  delivered := by simpa [Replica.counting, isDelivered] using h.delivered
  echo := by
    intro hactive hsend
    have hactive' : r.isDelivered = false := by
      simpa [Replica.counting, isDelivered] using hactive
    simp only [Replica.counting, Tally.pendingSend_take]
    by_cases hm : m.kind = .send
    · simp [hm]
    · obtain ⟨m', hm', hkind⟩ := hsend
      rw [if_neg hm]
      rcases List.mem_append.mp hm' with hm' | hm'
      · exact h.echo hactive' ⟨m', hm', hkind⟩
      · obtain rfl := List.mem_singleton.mp hm'
        exact absurd hkind hm

-- One more message to all, sealed with the next key.
theorem broadcast (h : r.Prompt first seen done) {m : Message} {signer : Signer}
    (hsupplied : signer.Supplied)
    (hsealed : m.SealedWith r.id r.signer.next.publicKey signer.next.publicKey) :
    { r with signer }.Prompt first seen (done ++ [Action.broadcast m]) where
  supplied := hsupplied
  chained := by
    rw [messagesOf_append]
    exact chained_append.mpr ⟨_, h.chained, chained_singleton.mpr hsealed⟩
  toAll := by simpa using h.toAll
  ready := by
    intro d hd
    obtain ⟨m', hm', hkind⟩ := h.ready d hd
    exact ⟨m', List.mem_append_left _ hm', hkind⟩
  delivered := by
    intro hdelivered
    obtain ⟨d, height, hvoted, hready, hd⟩ := h.delivered hdelivered
    exact ⟨d, height, hvoted, hready, List.mem_append_left _ hd⟩
  echo := by
    intro hactive hsend
    refine (h.echo hactive hsend).imp_right ?_
    rintro ⟨m', hm', hkind⟩
    exact ⟨m', List.mem_append_left _ hm', hkind⟩

theorem act {P : Block → Prop} (h : r.Prompt first seen done) (hstores : r.Stores P)
    {actions : List Action} {r' : Replica} (hact : Act r actions r') :
    r'.Prompt first seen (done ++ actions) := by
  cases hact with
  | @echo d active pending =>
      obtain ⟨m, signer, hsupplied, hvote, hkind, hsealed⟩ := vote_of_supplied
        (r := { r with tally := r.tally.clearSend }) h.supplied (hstores.pending d pending) .echo
        Round.echo
      have hnext := h.broadcast hsupplied hsealed
      rw [hvote]
      exact ⟨hnext.supplied, hnext.chained, hnext.toAll, hnext.ready, hnext.delivered,
        fun _ _ => .inr ⟨m, by simp, hkind⟩⟩
  | @ready d round tally active mark call =>
      obtain ⟨-, rfl⟩ := Tally.markReady_eq_true mark
      obtain ⟨m, signer, hsupplied, hvote, -, hsealed⟩ := vote_of_supplied
        (r := { r with tally := { r.tally with readySent := d :: r.tally.readySent } }) h.supplied
        (hstores.isSome_of_callsReady call) .ready round
      have hnext := h.broadcast hsupplied hsealed
      obtain ⟨m', heq, hkind, hid, -⟩ := (hstores.withReadySent (d :: r.tally.readySent)).mem_vote
        (a := .broadcast m) (by rw [hvote]; exact List.mem_singleton_self _)
      cases heq
      rw [hvote]
      refine ⟨hnext.supplied, hnext.chained, hnext.toAll, ?_, ?_, hnext.echo⟩
      · intro d' hd'
        rcases List.mem_cons.mp hd' with rfl | hd'
        · exact ⟨m, by simp, hkind, hid⟩
        · exact hnext.ready d' hd'
      · intro hdelivered
        obtain ⟨d', height, hvoted, hready, hd⟩ := hnext.delivered hdelivered
        exact ⟨d', height, hvoted, List.mem_cons_of_mem _ hready, hd⟩
  | @deliver d active declared enough =>
      refine ⟨h.supplied, ?_, ?_, ?_, ?_, ?_⟩
      · have hnone : messagesOf (r.deliver d).1 = [] := rfl
        rw [messagesOf_append, hnone, List.append_nil]
        exact h.chained
      · simpa [Replica.deliver] using h.toAll
      · intro d' hd'
        obtain ⟨m, hm, hkind⟩ := h.ready d' hd'
        exact ⟨m, List.mem_append_left _ hm, hkind⟩
      · exact fun _ => ⟨d, _, rfl, declared, List.mem_append_right _ (List.mem_singleton_self _)⟩
      · intro hactive
        simp [Replica.deliver, isDelivered, Tally.isDelivered, Tally.deliver] at hactive

end Prompt

-- Nothing that a batch calls for is left for later.
theorem Prompt.outcome {P : Block → Prop} (hP : ∀ a b : Block, a.Agrees b → P b → P a)
    {first : PublicKey} {seen : List Message} {done : List Action} {r : Replica}
    (h : r.Prompt first seen done) (hstores : r.Stores P)
    (hpending : r.isDelivered = false → r.tally.pendingSend = none) {batch : List Message}
    (hbatch : ∀ m ∈ batch, P m.block) :
    (r.outcome batch).2.Prompt first (seen ++ r.counted batch) (done ++ (r.outcome batch).1) :=
  (hstores.outcome_induct (I := fun seen done r => r.Prompt first seen done) hP batch seen done
    hbatch (fun _ _ _ m s h _ => h.counting m s) (fun _ _ _ m h => h.following m)
    (fun _ _ _ _ _ hstores h hact => h.act hstores hact) h
    fun hactive => h.clearSend (hpending hactive)).2

theorem settled_outcome {r : Replica} {batch : List Message}
    (hend : (r.outcome batch).2.isDelivered = false) : (r.outcome batch).2.Settled := by
  unfold outcome at hend ⊢
  split at hend
  · rename_i hdelivered
    rw [onMessages_isDelivered] at hend
    exact absurd (hdelivered.symm.trans hend) (by decide)
  · rename_i hactive
    simp only [hactive]
    exact settled_endOfRound hend

end Replica

namespace Session

-- An honest member that signs without fail and did all that it was called upon to do.
structure Diligent (s : Session) : Prop where
  grounded : s.Grounded
  prompt : ∃ first, s.replica.Prompt first s.counted s.done
  settled : s.replica.isDelivered = false → s.replica.Settled

theorem diligent_start {seat : Seat} (hhonest : seat.role.IsHonest)
    (hsupplied : seat.signer.Supplied) (v : ValidatorId) (view : LedgerView) :
    (start (seat.replica v) view).Diligent where
  grounded := ⟨.start (Replica.stores_create ..) view, hhonest⟩
  prompt := ⟨_, Replica.Prompt.start (seat.replica v) hsupplied view⟩
  settled := fun _ => Replica.settled_startRun _ _

namespace Diligent

variable {s : Session} {d : Digest}

theorem batch (h : s.Diligent) (messages : List Message) :
    (s.answer (.batch messages)).Diligent := by
  have hproper := h.grounded.replica.stores.proper
  have hgrounded := h.grounded.answer (c := .batch messages) rfl
  obtain ⟨first, hprompt⟩ := h.prompt
  rw [answer_batch hproper h.grounded.honest] at hgrounded ⊢
  exact ⟨hgrounded, ⟨first, hprompt.outcome (fun _ _ _ _ => trivial) h.grounded.replica.stores
    (fun hactive => (h.settled hactive).pending) fun _ _ => trivial⟩, Replica.settled_outcome⟩

-- What a call other than the start of a run leaves as it was.
theorem sameSetup_answer (h : s.Diligent) {c : Replica.Call} (hc : c.isStart = false) :
    s.replica.SameSetup (s.answer c).replica := by
  rw [s.answer_eq hc]
  exact Replica.answer_sameSetup h.grounded.replica.stores.proper hc

theorem counted_batch (h : s.Diligent) (messages : List Message) :
    (s.answer (.batch messages)).counted = s.counted ++ s.replica.counted messages := by
  rw [answer_batch h.grounded.replica.stores.proper h.grounded.honest]

theorem keyChain_batch (h : s.Diligent) (messages : List Message) :
    (s.answer (.batch messages)).replica.keyChain = s.replica.keyChain.follow messages := by
  rw [answer_batch h.grounded.replica.stores.proper h.grounded.honest]
  exact Replica.outcome_keyChain h.grounded.replica.stores.proper messages

theorem isDelivered_of_batch (h : s.Diligent) {messages : List Message}
    (hend : (s.answer (.batch messages)).replica.isDelivered = false) :
    s.replica.isDelivered = false := by
  rw [answer_batch h.grounded.replica.stores.proper h.grounded.honest] at hend
  exact Replica.isDelivered_of_outcome hend

theorem finalized_batch (h : s.Diligent) {messages : List Message}
    (hend : (s.answer (.batch messages)).replica.isDelivered = false) :
    (s.answer (.batch messages)).replica.finalized = s.replica.finalized := by
  rw [answer_batch h.grounded.replica.stores.proper h.grounded.honest] at hend ⊢
  exact Replica.outcome_finalized h.grounded.replica.stores.proper hend

theorem propose (h : s.Diligent) (hrole : s.replica.role.isProposer = true) (b : Block) :
    (s.answer (.propose b)).Diligent ∧ (s.answer (.propose b)).Sent .send b.id := by
  obtain ⟨first, hprompt⟩ := h.prompt
  obtain ⟨m, signer, hsupplied, hanswer, hvotes, hsealed⟩ :=
    Replica.propose_of_supplied hprompt.supplied hrole b
  have hgrounded := h.grounded.answer (c := .propose b) rfl
  have hnext : s.answer (.propose b) =
      ⟨{ s.replica with signer }, s.counted, s.done ++ [.broadcast m]⟩ := by
    rw [Session.answer_propose, hanswer]
  rw [hnext] at hgrounded ⊢
  exact ⟨⟨hgrounded, ⟨first, hprompt.broadcast hsupplied hsealed⟩,
    fun hactive => ⟨(h.settled hactive).pending, (h.settled hactive).echoes,
      (h.settled hactive).readies, (h.settled hactive).undelivered⟩⟩,
    m, by simp, hvotes.kind, hvotes.agrees.id⟩

-- A delivery has votes behind it.
theorem isDelivered_eq_false (h : s.Diligent) (hnone : ∀ m ∈ s.counted, m.kind ≠ .ready) :
    s.replica.isDelivered = false := by
  by_contra hdelivered
  obtain ⟨first, hprompt⟩ := h.prompt
  obtain ⟨d, height, -, -, hd⟩ := hprompt.delivered (Bool.of_not_eq_false hdelivered)
  have hvotes := h.grounded.replica.delivered d height hd
  obtain ⟨m, hm⟩ := List.exists_mem_of_length_pos
    (Replica.pos_of_readyQuorum_le (Replica.readyQuorum_le_of_delivers hvotes))
  exact hnone m (mem_votesFor.mp hm).1 (mem_votesFor.mp hm).2.1

theorem exists_echo (h : s.Diligent) (hactive : s.replica.isDelivered = false)
    (hsend : ∃ m ∈ s.counted, m.kind = .send) : ∃ m, .broadcast m ∈ s.done ∧ m.kind = .echo := by
  obtain ⟨first, hprompt⟩ := h.prompt
  exact (hprompt.echo hactive hsend).resolve_left (by simp [(h.settled hactive).pending])

theorem sent_ready (h : s.Diligent) (hactive : s.replica.isDelivered = false)
    (hpos : 0 < (votesFor .echo d s.counted).length)
    (hquorum : s.replica.thresholds.echoQuorum ≤ (votesFor .echo d s.counted).length) :
    s.Sent .ready d := by
  obtain ⟨first, hprompt⟩ := h.prompt
  rw [← (h.grounded.replica.tallied hactive d).1] at hpos hquorum
  exact hprompt.ready d ((h.settled hactive).echoes d hpos hquorum)

theorem sent_ready_of_readies (h : s.Diligent) (hactive : s.replica.isDelivered = false)
    (hquorum : s.replica.thresholds.readyQuorum ≤ (votesFor .ready d s.counted).length) :
    s.Sent .ready d := by
  obtain ⟨first, hprompt⟩ := h.prompt
  rw [← (h.grounded.replica.tallied hactive d).2] at hquorum
  exact hprompt.ready d ((h.settled hactive).readies d hquorum)

-- Without a delivery the votes are not enough for one.
theorem length_votesFor_le (h : s.Diligent) (hactive : s.replica.isDelivered = false) :
    (votesFor .ready d s.counted).length ≤ s.replica.thresholds.deliveryThreshold := by
  by_contra hover
  have henough : s.replica.thresholds.delivers (votesFor .ready d s.counted).length = true :=
    decide_eq_true (Nat.not_le.mp hover)
  exact absurd (h.grounded.replica.isDelivered_of_votes h.settled henough) (by simp [hactive])

-- Votes enough make an honest member deliver.
theorem exists_delivers (h : s.Diligent)
    (henough : s.replica.thresholds.delivers (votesFor .ready d s.counted).length = true) :
    ∃ e, s.Delivers e := by
  obtain ⟨first, hprompt⟩ := h.prompt
  obtain ⟨e, height, -, -, he⟩ :=
    hprompt.delivered (h.grounded.replica.isDelivered_of_votes h.settled henough)
  exact ⟨e, height, he⟩

-- If all votes are for one block, it is the one delivered.
theorem delivers (h : s.Diligent)
    (henough : s.replica.thresholds.delivers (votesFor .ready d s.counted).length = true)
    (honly : ∀ m ∈ s.counted, m.kind = .ready → m.blockId = d) : s.Delivers d := by
  obtain ⟨e, height, he⟩ := h.exists_delivers henough
  have hvotes := h.grounded.replica.delivered e height he
  obtain ⟨m, hm⟩ := List.exists_mem_of_length_pos
    (Replica.pos_of_readyQuorum_le (Replica.readyQuorum_le_of_delivers hvotes))
  obtain ⟨hcounted, hkind, rfl⟩ := mem_votesFor.mp hm
  exact honly m hcounted hkind ▸ ⟨height, he⟩

end Diligent

end Session

end QuorumLedger
