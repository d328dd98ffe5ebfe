import QuorumLedger.Proofs.Consensus.Agreement
import QuorumLedger.Proofs.Consensus.Readiness

namespace QuorumLedger

-- More members than `least` have votes for a block among messages.
def BackedBy (members : List ValidatorId) (least : Nat) (d : Digest) (messages : List Message) :
    Prop :=
  ∃ A : Finset ValidatorId, (∀ u ∈ A, u ∈ members) ∧ least < A.card ∧
    ∀ u ∈ A, ∃ m ∈ messages, m.kind = .ready ∧ m.blockId = d ∧ m.signer? = some u

-- Without repeats every vote is that of another voter.
theorem backedBy_of_nodup {members : List ValidatorId} {least : Nat} {d : Digest}
    {messages : List Message} (hsigned : ∀ m ∈ messages, m.signer?.isSome)
    (hmore : least < (votesFor .ready d messages).length)
    (hnodup : (voters .ready d messages).Nodup)
    (hmembers : ∀ u ∈ voters .ready d messages, u ∈ members) :
    BackedBy members least d messages := by
  refine ⟨(voters .ready d messages).toFinset, fun u hu => hmembers u (List.mem_toFinset.mp hu), ?_,
    fun u hu => mem_voters.mp (List.mem_toFinset.mp hu)⟩
  rwa [List.toFinset_card_of_nodup hnodup, length_voters hsigned]

-- Votes back no more members than there are members among the names that signed.
theorem BackedBy.lt_card {members : List ValidatorId} {least : Nat} {d : Digest}
    {messages : List Message} (h : BackedBy members least d messages) :
    least < ((messages.filterMap Message.signer?).filter (· ∈ members)).toFinset.card := by
  obtain ⟨A, hmembers, hmore, hvotes⟩ := h
  refine hmore.trans_le (Finset.card_le_card fun u hu => ?_)
  obtain ⟨m, hm, -, -, hsigner⟩ := hvotes u hu
  have hname : u ∈ messages.filterMap Message.signer? := List.mem_filterMap.mpr ⟨m, hm, hsigner⟩
  simpa using ⟨List.mem_filterMap.mp hname, hmembers u hu⟩

namespace Replica

-- Fewer actions need fewer votes.
theorem Grounded.of_subset {seen : List Message} {done done' : List Action} {r : Replica}
    (h : r.Grounded seen done) (hsub : done' ⊆ done) : r.Grounded seen done' :=
  ⟨h.stores, h.tallied, fun m hm => h.ready m (hsub hm),
    fun d height hd => h.delivered d height (hsub hd)⟩

-- One message over and over, sealed with the key that it discloses again.
theorem counted_replicate {r : Replica} {m : Message} {u : ValidatorId} {key : PublicKey}
    (hm : m.SealedWith u key key) (hpending : m.blockId ∉ r.finalized)
    (hvalid : m.block.isValid r.view = true)
    (hknown : r.keyChain.recorded.get? u = none ∨ r.keyChain.recorded.get? u = some (some key))
    (n : Nat) : r.counted (.replicate n m) = .replicate n m := by
  obtain ⟨signature, hs, hverify⟩ := hm
  induction n generalizing r with
  | zero => rfl
  | succ n ih =>
      have haccepted : (r.keyChain.check u
          (Block.sealDigest m.blockId ⟨u, signature, some key⟩).toList signature).isAccepted =
            true := by
        unfold KeyChain.check
        rcases hknown with hnew | hsame
        · rw [hnew]
          rfl
        · rw [hsame]
          exact hverify
      have haccepts : r.Accepts m ⟨u, signature, some key⟩ :=
        ⟨hs, haccepted, hpending, .inr hvalid⟩
      have hnext := ih (r := r.counting m ⟨u, signature, some key⟩) hpending hvalid
        (.inr (by simp [counting, KeyChain.advance]))
      simp [List.replicate_succ, counted, onMessage_of_accepts haccepts, hnext]

-- Faults of the role neither make nor change deliveries.
theorem mem_outcome_of_mem_answer {r : Replica} (hproper : r.tally.Proper) {batch : List Message}
    {d : Digest} {height : Height} (h : .delivered d height ∈ (r.answer (.batch batch)).1) :
    r.role.participates = true ∧ .delivered d height ∈ (r.outcome batch).1 := by
  rw [answer_batch hproper] at h
  split at h
  · next hrole =>
    refine ⟨hrole, Role.forall_mem_shape (Q := fun a => ∀ d height,
      a = .delivered d height → .delivered d height ∈ (r.outcome batch).1)
      ?_ ?_ ?_ _ h d height rfl⟩
    · intro v a ha d height heq
      cases a <;> cases heq
      exact ha _ _ rfl
    · intro a ha d height heq
      cases a <;> cases heq
      exact ha _ _ rfl
    · rintro _ ha d height rfl
      exact ha
  · cases h

end Replica

namespace Session

-- The votes that a replica holds are those of the messages that it counted, all of them sealed.
structure Counting (t : Thresholds) (s : Session) : Prop where
  replica : s.replica.Grounded s.counted []
  thresholds : s.replica.thresholds = t
  signed : ∀ m ∈ s.counted, m.signer?.isSome

variable {t : Thresholds} {s : Session}

theorem counting_start (seat : Seat) (v : ValidatorId) (earlier : List Replica.Call)
    (view : LedgerView) :
    (start ((seat.replica v).after earlier) view).Counting seat.thresholds := by
  obtain ⟨hstores, hseat⟩ := Replica.stores_after seat v earlier
  exact ⟨.start hstores view, hseat.thresholds, by simp [start]⟩

theorem Counting.answer (h : s.Counting t) {c : Replica.Call} (hc : c.isStart = false) :
    (s.answer c).Counting t := by
  have hproper := h.replica.stores.proper
  refine ⟨?_, ?_, ?_⟩
  · cases c with
    | startRun view => cases hc
    | takeDelivered =>
        rw [answer_takeDelivered]
        exact h.replica.takeDelivered
    | propose b =>
        obtain ⟨signer, hnext⟩ := s.replica.propose_snd b
        rw [answer_propose, hnext]
        exact h.replica.withSigner signer
    | batch messages =>
        cases hrole : s.replica.role.participates with
        | false =>
            rw [answer_batch_of_crash hrole]
            exact h.replica
        | true =>
            rw [answer_batch_of_participates hproper hrole]
            exact (h.replica.outcome messages).of_subset (List.nil_subset _)
  · rw [s.answer_eq hc]
    exact (Replica.answer_sameSetup hproper hc).thresholds.trans h.thresholds
  · rw [s.answer_eq hc]
    exact List.forall_mem_append.mpr
      ⟨h.signed, fun m hm => Replica.isSome_signer_of_mem_countedIn hm⟩

theorem Counting.run (h : s.Counting t) {calls : List Replica.Call}
    (hcalls : ∀ c ∈ calls, c.isStart = false) : (s.run calls).Counting t := by
  induction calls generalizing s with
  | nil => exact h
  | cons c rest ih =>
      obtain ⟨hc, hrest⟩ := List.forall_mem_cons.mp hcalls
      exact ih (h.answer hc) hrest

theorem Counting.lt_votes (h : s.Counting t) {batch : List Message} {d : Digest} {height : Height}
    (hd : .delivered d height ∈ (s.replica.answer (.batch batch)).1) :
    t.deliveryThreshold < (votesFor .ready d (s.answer (.batch batch)).counted).length := by
  have hproper := h.replica.stores.proper
  obtain ⟨hrole, hd⟩ := Replica.mem_outcome_of_mem_answer hproper hd
  have henough := (h.replica.outcome batch).delivered d height (List.mem_append_right _ hd)
  rw [(Replica.outcome_sameSetup hproper batch).thresholds, h.thresholds] at henough
  rw [answer_batch_of_participates hproper hrole]
  exact of_decide_eq_true henough

end Session

-- A message sealed with the blank key, which it discloses again for the next one.
def blankVote (kind : MessageKind) (b : Block) (u : ValidatorId) : Message :=
  ⟨kind, b.signBy KeyPair.blank.privateKey u (some KeyPair.blank.publicKey), u, Round.send⟩

theorem sealedWith_blankVote (kind : MessageKind) (b : Block) (u : ValidatorId) :
    (blankVote kind b u).SealedWith u KeyPair.blank.publicKey KeyPair.blank.publicKey := by
  refine ⟨_, rfl, decide_eq_true ?_⟩
  rw [KeyPair.blank.publicKey_eq]
  exact PrivateKey.verify_sign _ _

theorem isValid_blankVote {b : Block} {view : LedgerView} (h : b.check view = .ok ())
    (kind : MessageKind) (u : ValidatorId) : (blankVote kind b u).block.isValid view = true := by
  have hagrees : (blankVote kind b u).block.Agrees b := Block.signBy_agrees ..
  rw [hagrees.isValid]
  exact Block.isValid_iff.mpr h

theorem votesFor_blankVotes (kind : MessageKind) (b : Block) (us : List ValidatorId) :
    votesFor kind b.id (us.map (blankVote kind b)) = us.map (blankVote kind b) :=
  List.filter_eq_self.mpr (List.forall_mem_map.mpr fun _ _ => decide_eq_true ⟨rfl, rfl⟩)

-- Votes of voters that were not heard of before all count.
theorem counted_blankVotes {r : Replica} {b : Block} (hb : b.check r.view = .ok ())
    (hpending : b.id ∉ r.finalized) (kind : MessageKind) {us : List ValidatorId}
    (hnodup : us.Nodup) (hnew : ∀ u ∈ us, r.keyChain.recorded.get? u = none) :
    r.counted (us.map (blankVote kind b)) = us.map (blankVote kind b) := by
  refine Replica.counted_of_firstContacts ?_ ?_ ?_ ?_
  · exact List.forall_mem_map.mpr fun u hu => ⟨u, rfl, hnew u hu⟩
  · have hsigners : (us.map (blankVote kind b)).filterMap Message.signer? = us := by
      rw [List.filterMap_map]
      exact List.filterMap_some
    rwa [hsigners]
  · exact List.forall_mem_map.mpr fun u _ => hpending
  · exact List.forall_mem_map.mpr fun u _ => isValid_blankVote hb kind u

-- The READYs of a single voter deliver a block, if it sends enough of them.
theorem Session.delivers_replicate_blankVote {seat : Seat} (hhonest : seat.role.IsHonest)
    (hsupplied : seat.signer.Supplied) (v : ValidatorId) {b : Block} {view : LedgerView}
    (hb : b.check view = .ok ()) (u : ValidatorId) {n : Nat}
    (hn : seat.thresholds.deliveryThreshold < n) :
    ((start (seat.replica v) view).answer (.batch (.replicate n (blankVote .ready b u)))).counted =
        .replicate n (blankVote .ready b u) ∧
      ((start (seat.replica v) view).answer
        (.batch (.replicate n (blankVote .ready b u)))).Delivers b.id := by
  have hdiligent := diligent_start hhonest hsupplied v view
  have hall := Replica.counted_replicate (r := (start (seat.replica v) view).replica)
    (sealedWith_blankVote .ready b u) List.not_mem_nil (isValid_blankVote hb .ready u) (.inl rfl) n
  have hcounted := (hdiligent.counted_batch (.replicate n (blankVote .ready b u))).trans hall
  have hsame := (hdiligent.sameSetup_answer
    (c := .batch (.replicate n (blankVote .ready b u))) rfl).thresholds
  have hvotes : votesFor .ready b.id (.replicate n (blankVote .ready b u)) =
      .replicate n (blankVote .ready b u) := by
    rw [← List.map_replicate (f := blankVote .ready b), votesFor_blankVotes]
  refine ⟨hcounted, (hdiligent.batch _).delivers ?_ fun m hm _ => ?_⟩
  · rw [hsame, hcounted, hvotes, List.length_replicate]
    exact decide_eq_true hn
  · rw [hcounted] at hm
    rw [List.eq_of_mem_replicate hm]
    rfl

-- A block that a replica delivers, and what it was asked before in this run and in earlier ones.
structure Delivery where
  seat : Seat
  self : ValidatorId
  earlier : List Replica.Call
  view : LedgerView
  calls : List Replica.Call
  batch : List Message
  block : Digest
  height : Height
  within : ∀ c ∈ calls, c.isStart = false
  delivered : .delivered block height ∈
    (((Session.start ((seat.replica self).after earlier) view).run calls).replica.answer
      (.batch batch)).1

namespace Delivery

-- The messages that counted in the run, the last batch included.
def heard (D : Delivery) : List Message :=
  (((Session.start ((D.seat.replica D.self).after D.earlier) D.view).run D.calls).answer
    (.batch D.batch)).counted

-- Delivery takes more READYs than this.
def limit (D : Delivery) : Nat :=
  2 * D.seat.thresholds.faulty.toNat + 1

-- Votes are not told apart by their senders, and whoever is heard of for the first time counts. So
-- the votes behind a delivery are as many as they should be, but need not be those of as many
-- members.
theorem backed (D : Delivery) :
    (∀ m ∈ votesFor .ready D.block D.heard, m.signer?.isSome) ∧
      D.limit < (votesFor .ready D.block D.heard).length ∧
      ((voters .ready D.block D.heard).Nodup →
        (∀ u ∈ voters .ready D.block D.heard, u ∈ D.seat.committee) →
          BackedBy D.seat.committee D.limit D.block D.heard) := by
  have hbefore := (Session.counting_start D.seat D.self D.earlier D.view).run D.within
  have hsigned := (hbefore.answer (c := .batch D.batch) rfl).signed
  have hmore := hbefore.lt_votes D.delivered
  exact ⟨fun m hm => hsigned m (mem_votesFor.mp hm).1, hmore,
    fun hnodup hmembers => backedBy_of_nodup hsigned hmore hnodup hmembers⟩

-- A member of three delivers in its first run.
theorem exists_ofThree (calls : List Replica.Call) (hcalls : ∀ c ∈ calls, c.isStart = false)
    {batch : List Message} {d : Digest}
    (hd : d ∈ Action.deliveredIn
      (((Roster.seated ⟨0⟩).run calls).replica.answer (.batch batch)).1) :
    ∃ D : Delivery, D.seat = Roster.threeSeat ∧ D.block = d ∧
      D.heard = (((Roster.seated ⟨0⟩).run calls).answer (.batch batch)).counted := by
  obtain ⟨height, hd⟩ := Action.mem_deliveredIn.mp hd
  exact ⟨⟨Roster.threeSeat, ⟨0⟩, [], ⟨∅, []⟩, calls, batch, d, height, hcalls, hd⟩, rfl, rfl, rfl⟩

-- The READYs of the two others come in two batches.
theorem backed_two_of_three :
    ∃ D : Delivery, (voters .ready D.block D.heard).Nodup ∧
      (∀ u ∈ voters .ready D.block D.heard, u ∈ D.seat.committee) ∧
        BackedBy D.seat.committee D.limit D.block D.heard := by
  have hcalls : ∀ c ∈ [Replica.Call.batch [Roster.ballot ⟨1⟩]], c.isStart = false := by
    simp [Replica.Call.isStart]
  have hdelivered : Action.deliveredIn (((Roster.seated ⟨0⟩).run
      [.batch [Roster.ballot ⟨1⟩]]).replica.answer (.batch [Roster.ballot ⟨2⟩])).1 =
        [Block.blank.id] := by decide +kernel
  have hvoters : voters .ready Block.blank.id (((Roster.seated ⟨0⟩).run
      [.batch [Roster.ballot ⟨1⟩]]).answer (.batch [Roster.ballot ⟨2⟩])).counted =
        [⟨1⟩, ⟨2⟩] := by decide +kernel
  obtain ⟨D, hseat, hblock, hheard⟩ := exists_ofThree _ hcalls (hdelivered ▸ List.mem_cons_self)
  rw [← hblock, ← hheard] at hvoters
  have hnodup : (voters .ready D.block D.heard).Nodup := by
    rw [hvoters]
    decide
  have hmembers : ∀ u ∈ voters .ready D.block D.heard, u ∈ D.seat.committee := by
    rw [hvoters, hseat]
    decide
  exact ⟨D, hnodup, hmembers, D.backed.2.2 hnodup hmembers⟩

-- Two READYs of the same member are enough.
theorem exists_repeated :
    ∃ D : Delivery, D.seat = Roster.threeSeat ∧
      D.heard.filterMap Message.signer? = [⟨1⟩, ⟨1⟩] := by
  have hhonest : Roster.threeSeat.role.IsHonest := rfl
  obtain ⟨hcounted, height, hd⟩ := Session.delivers_replicate_blankVote hhonest
    (Signer.steady_supplied _) ⟨0⟩ (Block.check_blank ⟨∅, []⟩) ⟨1⟩ (show 1 < 2 by decide)
  rw [Session.answer_eq _ rfl] at hd
  have hd := (List.mem_append.mp hd).resolve_left List.not_mem_nil
  obtain ⟨D, hseat, -, hheard⟩ :=
    exists_ofThree [] (by simp) (Action.mem_deliveredIn.mpr ⟨height, hd⟩)
  have hsigner : (blankVote .ready .blank ⟨1⟩).signer? = some ⟨1⟩ := rfl
  exact ⟨D, hseat, by simp [hheard.trans hcounted, hsigner, List.replicate_succ]⟩

-- The READYs of two who are no members are enough, too.
theorem exists_foreign :
    ∃ D : Delivery, D.seat = Roster.threeSeat ∧
      D.heard.filterMap Message.signer? = [⟨7⟩, ⟨8⟩] := by
  have hdelivered : Action.deliveredIn (((Roster.seated ⟨0⟩).run []).replica.answer
      (.batch [Roster.ballot ⟨7⟩, Roster.ballot ⟨8⟩])).1 = [Block.blank.id] := by decide +kernel
  have hsigners : (((Roster.seated ⟨0⟩).run []).answer
      (.batch [Roster.ballot ⟨7⟩, Roster.ballot ⟨8⟩])).counted.filterMap Message.signer? =
        [⟨7⟩, ⟨8⟩] := by decide +kernel
  obtain ⟨D, hseat, -, hheard⟩ := exists_ofThree [] (by simp) (hdelivered ▸ List.mem_cons_self)
  exact ⟨D, hseat, hheard ▸ hsigners⟩

theorem not_backed_of_repeated_or_foreign :
    (¬ ∀ D : Delivery, (∀ u ∈ voters .ready D.block D.heard, u ∈ D.seat.committee) →
      BackedBy D.seat.committee D.limit D.block D.heard) ∧
    ¬ ∀ D : Delivery, (voters .ready D.block D.heard).Nodup →
      BackedBy D.seat.committee D.limit D.block D.heard := by
  constructor
  · intro h
    obtain ⟨D, hseat, hsigners⟩ := exists_repeated
    have hmembers : ∀ u ∈ voters .ready D.block D.heard, u ∈ D.seat.committee := by
      intro u hu
      have hname := (List.filter_sublist.filterMap _).subset hu
      have hone : u = ⟨1⟩ := by simpa [hsigners] using hname
      rw [hone, hseat]
      decide
    have hmore := (h D hmembers).lt_card
    rw [limit, hseat, hsigners] at hmore
    exact absurd hmore (by decide)
  · intro h
    obtain ⟨D, hseat, hsigners⟩ := exists_foreign
    have hnodup : (voters .ready D.block D.heard).Nodup :=
      (hsigners ▸ (by decide : [(⟨7⟩ : ValidatorId), ⟨8⟩].Nodup)).sublist
        (List.filter_sublist.filterMap _)
    have hmore := (h D hnodup).lt_card
    rw [limit, hseat, hsigners] at hmore
    exact absurd hmore (by decide)

end Delivery

end QuorumLedger
