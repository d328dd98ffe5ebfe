import QuorumLedger.Proofs.Consensus.Receiving
import QuorumLedger.Proofs.Ledger.Content

namespace QuorumLedger.Replica

-- What a vote shows of the replica that signed it and of the block that it is for.
structure Votes (r : Replica) (kind : MessageKind) (b : Block) (m : Message) : Prop where
  kind : m.kind = kind
  agrees : m.block.Agrees b
  sender : m.sender = r.id
  signer : m.signer? = some r.id
  votes : m.block.votes = []

theorem sign_snd (r : Replica) (kind : MessageKind) (b : Block) (round : UInt16) :
    ∃ signer, (r.sign kind b round).2 = { r with signer } := by
  unfold sign
  split <;> exact ⟨_, rfl⟩

theorem votes_of_sign {r : Replica} {kind : MessageKind} {b : Block} {round : UInt16} {m : Message}
    (h : (r.sign kind b round).1 = .ok m) : r.Votes kind b m ∧ m.round = round := by
  unfold sign Block.signWith at h
  cases hrotate : r.signer.rotate with
  | mk outcome signer =>
      cases outcome with
      | error e => simp [hrotate] at h
      | ok keys =>
          simp only [hrotate, Except.ok.injEq] at h
          subst h
          exact ⟨⟨rfl, (Block.signBy_agrees _ _ _ _).trans (Block.withoutVotes_agrees b), rfl, rfl,
            rfl⟩, rfl⟩

theorem vote_snd (r : Replica) (kind : MessageKind) (d : Digest) (round : UInt16) :
    ∃ signer, (r.vote kind d round).2 = { r with signer } := by
  unfold vote
  cases r.blocks.get? d with
  | none => exact ⟨r.signer, rfl⟩
  | some b =>
      obtain ⟨signer, h⟩ := r.sign_snd kind b round
      cases hs : r.sign kind b round with
      | mk outcome r' =>
          rw [hs] at h
          refine ⟨signer, ?_⟩
          simp only [hs]
          cases outcome <;> exact h

theorem mem_vote {r : Replica} {kind : MessageKind} {d : Digest} {round : UInt16} {a : Action}
    (h : a ∈ (r.vote kind d round).1) :
    ∃ m b, a = .broadcast m ∧ r.blocks.get? d = some b ∧ r.Votes kind b m ∧ m.round = round := by
  unfold vote at h
  cases hb : r.blocks.get? d with
  | none => simp [hb] at h
  | some b =>
      cases hs : r.sign kind b round with
      | mk outcome r' =>
          cases outcome with
          | error e => simp [hb, hs] at h
          | ok m =>
              have ha : a = .broadcast m := by simpa [hb, hs] using h
              exact ⟨m, b, ha, rfl, votes_of_sign (by rw [hs])⟩

-- Whether the votes counted so far call for a READY, and with which mark it goes out.
def CallsReady (r : Replica) (d : Digest) (round : UInt16) : Prop :=
  (round = Round.readyFromEcho ∧ 0 < r.tally.echoCount d ∧
      r.thresholds.echoQuorum ≤ r.tally.echoCount d) ∨
    (round = Round.readyFromReady ∧ r.thresholds.readyQuorum ≤ r.tally.readyCount d)

-- One act at the end of a round. After a delivery there is none.
inductive Act (r : Replica) : List Action → Replica → Prop
  | echo {d : Digest} (active : r.isDelivered = false) (pending : r.tally.pendingSend = some d) :
      Act r ({ r with tally := r.tally.clearSend }.vote .echo d Round.echo).1
        ({ r with tally := r.tally.clearSend }.vote .echo d Round.echo).2
  | ready {d : Digest} {round : UInt16} {tally : Tally} (active : r.isDelivered = false)
      (mark : r.tally.markReady d = (true, tally)) (call : r.CallsReady d round) :
      Act r ({ r with tally }.vote .ready d round).1 ({ r with tally }.vote .ready d round).2
  | deliver {d : Digest} (active : r.isDelivered = false) (declared : d ∈ r.tally.readySent)
      (enough : r.thresholds.delivers (r.tally.readyCount d)) :
      Act r (r.deliver d).1 (r.deliver d).2

inductive Acts : Replica → List Action → Replica → Prop
  | nil {r : Replica} : Acts r [] r
  | cons {r r' r'' : Replica} {now later : List Action} (first : Act r now r')
      (rest : Acts r' later r'') : Acts r (now ++ later) r''

theorem Act.acts {r r' : Replica} {actions : List Action} (h : Act r actions r') :
    Acts r actions r' := by
  simpa using Acts.cons h .nil

theorem Acts.append {r r' r'' : Replica} {now later : List Action} (h : Acts r now r')
    (h' : Acts r' later r'') : Acts r (now ++ later) r'' := by
  induction h with
  | nil => exact h'
  | cons first _ ih =>
      rw [List.append_assoc]
      exact .cons first (ih h')

-- An invariant of a replica and all that it did so far, kept by every act.
theorem Acts.induct {I : List Action → Replica → Prop} (done : List Action)
    (hact : ∀ done r actions r', I done r → Act r actions r' → I (done ++ actions) r')
    {r r' : Replica} {actions : List Action} (h : Acts r actions r') (hr : I done r) :
    I (done ++ actions) r' := by
  induction h generalizing done with
  | nil => simpa using hr
  | cons first _ ih =>
      rw [← List.append_assoc]
      exact ih _ (hact _ _ _ _ hr first)

theorem acts_echoPending {r : Replica} (hactive : r.isDelivered = false) :
    Acts r r.echoPending.1 r.echoPending.2 := by
  unfold echoPending
  cases hpending : r.tally.pendingSend with
  | none => exact .nil
  | some d => exact (Act.echo hactive hpending).acts

theorem echoPending_snd (r : Replica) :
    ∃ signer, r.echoPending.2 = { r with signer, tally := r.tally.clearSend } := by
  unfold echoPending
  cases hpending : r.tally.pendingSend with
  | none =>
      refine ⟨r.signer, ?_⟩
      simp only [Tally.clearSend]
      rw [← hpending]
  | some d =>
      obtain ⟨signer, h⟩ := vote_snd { r with tally := r.tally.clearSend } .echo d Round.echo
      exact ⟨signer, h⟩

theorem acts_declareReady {r : Replica} {d : Digest} {round : UInt16}
    (hactive : r.isDelivered = false) (hcall : r.CallsReady d round) :
    Acts r (r.declareReady d round).1 (r.declareReady d round).2 := by
  unfold declareReady
  cases hmark : r.tally.markReady d with
  | mk new tally =>
      cases new with
      | false => exact .nil
      | true => exact (Act.ready hactive hmark hcall).acts

theorem declareReady_snd (r : Replica) (d : Digest) (round : UInt16) :
    ∃ signer, (r.declareReady d round).2 =
      { r with signer, tally := { r.tally with readySent := r.tally.readySent.insert d } } := by
  unfold declareReady Tally.markReady
  by_cases h : d ∈ r.tally.readySent
  · exact ⟨r.signer, by simp [h]⟩
  · obtain ⟨signer, hvote⟩ := vote_snd
      { r with tally := { r.tally with readySent := d :: r.tally.readySent } } .ready d round
    exact ⟨signer, by simpa [h] using hvote⟩

theorem acts_readyFromEchoes {r : Replica} {ds : List Digest} (hactive : r.isDelivered = false)
    (hcalls : ∀ d ∈ ds, 0 < r.tally.echoCount d ∧
      r.thresholds.echoQuorum ≤ r.tally.echoCount d) :
    Acts r (r.readyFromEchoes ds).1 (r.readyFromEchoes ds).2 := by
  induction ds generalizing r with
  | nil => exact .nil
  | cons d rest ih =>
      obtain ⟨hd, hrest⟩ := List.forall_mem_cons.mp hcalls
      obtain ⟨signer, hnext⟩ := r.declareReady_snd d Round.readyFromEcho
      refine (acts_declareReady hactive (.inl ⟨rfl, hd⟩)).append (ih ?_ ?_)
      · rw [hnext]
        exact hactive
      · rw [hnext]
        exact hrest

theorem readyFromEchoes_snd (r : Replica) (ds : List Digest) :
    ∃ signer readySent, (∀ d ∈ ds, d ∈ readySent) ∧ r.tally.readySent ⊆ readySent ∧
      (r.readyFromEchoes ds).2 = { r with signer, tally := { r.tally with readySent } } := by
  induction ds generalizing r with
  | nil => exact ⟨r.signer, r.tally.readySent, by simp, fun _ hm => hm, rfl⟩
  | cons d rest ih =>
      obtain ⟨signer, hnext⟩ := r.declareReady_snd d Round.readyFromEcho
      obtain ⟨signer', readySent, hall, hgrow, hlast⟩ :=
        ih (r.declareReady d Round.readyFromEcho).2
      rw [hnext] at hgrow hlast
      refine ⟨signer', readySent, List.forall_mem_cons.mpr ⟨hgrow List.mem_insert_self, hall⟩,
        fun _ hm => hgrow (List.mem_insert_of_mem hm), ?_⟩
      change ((r.declareReady d Round.readyFromEcho).2.readyFromEchoes rest).2 = _
      rw [hnext]
      exact hlast

theorem readyQuorum_le_of_delivers {t : Thresholds} {count : Nat} (h : t.delivers count) :
    t.readyQuorum ≤ count := by
  have hover : t.deliveryThreshold < count := of_decide_eq_true h
  unfold Thresholds.deliveryThreshold at hover
  unfold Thresholds.readyQuorum
  omega

theorem pos_of_readyQuorum_le {t : Thresholds} {count : Nat} (h : t.readyQuorum ≤ count) :
    0 < count :=
  Nat.lt_of_lt_of_le (Nat.succ_pos _) h

theorem acts_readyFromReadies {r : Replica} {counts : List (Digest × Nat)}
    (hactive : r.isDelivered = false) (hcounts : ∀ e ∈ counts, r.tally.readyCount e.1 = e.2) :
    Acts r (r.readyFromReadies counts).1 (r.readyFromReadies counts).2 := by
  induction counts generalizing r with
  | nil => exact .nil
  | cons e rest ih =>
      obtain ⟨d, count⟩ := e
      obtain ⟨hd, hrest⟩ := List.forall_mem_cons.mp hcounts
      simp only at hd
      unfold readyFromReadies
      by_cases hready : r.thresholds.readyQuorum ≤ count
      · obtain ⟨signer, hnext⟩ := r.declareReady_snd d Round.readyFromReady
        have hcall : r.CallsReady d Round.readyFromReady := .inr ⟨rfl, hd ▸ hready⟩
        have hfirst := acts_declareReady hactive hcall
        simp only [hready, if_true]
        split
        · rename_i hdelivers
          refine hfirst.append (Act.deliver ?_ ?_ ?_).acts
          · rw [hnext]
            exact hactive
          · rw [hnext]
            exact List.mem_insert_self
          · rw [hnext] at hdelivers ⊢
            exact hd ▸ hdelivers
        · refine hfirst.append (ih ?_ ?_)
          · rw [hnext]
            exact hactive
          · rw [hnext]
            exact hrest
      · have hdelivers : ¬ r.thresholds.delivers count := fun h =>
          hready (readyQuorum_le_of_delivers h)
        simp only [hready, hdelivers, if_false, List.nil_append]
        exact ih hactive hrest

-- The READY that a count of READYs calls for.
def amplify (r : Replica) (d : Digest) (count : Nat) : List Action × Replica :=
  if r.thresholds.readyQuorum ≤ count then r.declareReady d Round.readyFromReady else ([], r)

theorem readyFromReadies_cons (r : Replica) (d : Digest) (count : Nat)
    (rest : List (Digest × Nat)) :
    r.readyFromReadies ((d, count) :: rest) =
      if (r.amplify d count).2.thresholds.delivers count then
        ((r.amplify d count).1 ++ ((r.amplify d count).2.deliver d).1,
          ((r.amplify d count).2.deliver d).2)
      else
        ((r.amplify d count).1 ++ ((r.amplify d count).2.readyFromReadies rest).1,
          ((r.amplify d count).2.readyFromReadies rest).2) :=
  rfl

theorem amplify_snd (r : Replica) (d : Digest) (count : Nat) :
    ∃ signer readySent, r.tally.readySent ⊆ readySent ∧
      (r.thresholds.readyQuorum ≤ count → d ∈ readySent) ∧
      (r.amplify d count).2 = { r with signer, tally := { r.tally with readySent } } := by
  unfold amplify
  by_cases hready : r.thresholds.readyQuorum ≤ count
  · obtain ⟨signer, hnext⟩ := r.declareReady_snd d Round.readyFromReady
    exact ⟨signer, _, fun _ hm => List.mem_insert_of_mem hm, fun _ => List.mem_insert_self,
      by rw [if_pos hready, hnext]⟩
  · exact ⟨r.signer, r.tally.readySent, fun _ hm => hm, fun h => absurd h hready,
      by rw [if_neg hready]⟩

-- Without a delivery every count was looked at.
theorem readyFromReadies_snd {r : Replica} {counts : List (Digest × Nat)}
    (hend : (r.readyFromReadies counts).2.isDelivered = false) :
    ∃ signer readySent, r.tally.readySent ⊆ readySent ∧
      (∀ e ∈ counts, r.thresholds.readyQuorum ≤ e.2 → e.1 ∈ readySent) ∧
      (∀ e ∈ counts, ¬ r.thresholds.delivers e.2) ∧
      (r.readyFromReadies counts).2 = { r with signer, tally := { r.tally with readySent } } := by
  induction counts generalizing r with
  | nil => exact ⟨r.signer, r.tally.readySent, fun _ hm => hm, by simp, by simp, rfl⟩
  | cons e rest ih =>
      obtain ⟨d, count⟩ := e
      obtain ⟨signer, readySent, hold, hsent, hnext⟩ := r.amplify_snd d count
      rw [readyFromReadies_cons, hnext] at hend ⊢
      by_cases hdelivers : r.thresholds.delivers count
      · simp [hdelivers, deliver, isDelivered, Tally.isDelivered, Tally.deliver] at hend
      · simp only [hdelivers, if_false, Bool.false_eq_true] at hend ⊢
        obtain ⟨signer', readySent', hgrow, hall, hnone, hlast⟩ := ih hend
        refine ⟨signer', readySent', fun _ hm => hgrow (hold hm), ?_, ?_, hlast⟩
        · exact List.forall_mem_cons.mpr ⟨fun h => hgrow (hsent h), hall⟩
        · exact List.forall_mem_cons.mpr ⟨hdelivers, hnone⟩

-- The state in between, when the READY counts are looked at.
def afterEchoes (r : Replica) : Replica :=
  (r.echoPending.2.readyFromEchoes (r.tally.echoed r.thresholds.echoQuorum)).2

theorem afterEchoes_eq (r : Replica) :
    ∃ signer readySent, (∀ d ∈ r.tally.echoed r.thresholds.echoQuorum, d ∈ readySent) ∧
      r.tally.readySent ⊆ readySent ∧
      r.afterEchoes = { r with signer, tally := { r.tally.clearSend with readySent } } := by
  obtain ⟨signer, hecho⟩ := r.echoPending_snd
  obtain ⟨signer', readySent, hsent, hold, hready⟩ :=
    r.echoPending.2.readyFromEchoes_snd (r.tally.echoed r.thresholds.echoQuorum)
  rw [hecho] at hold hready
  exact ⟨signer', readySent, hsent, hold, by rw [afterEchoes, hecho, hready]⟩

theorem endOfRound_eq (r : Replica) :
    r.endOfRound =
      (r.echoPending.1 ++
          ((r.echoPending.2.readyFromEchoes (r.tally.echoed r.thresholds.echoQuorum)).1 ++
            (r.afterEchoes.readyFromReadies r.tally.readies.entries).1),
        (r.afterEchoes.readyFromReadies r.tally.readies.entries).2) := by
  obtain ⟨signer, hecho⟩ := r.echoPending_snd
  obtain ⟨signer', readySent, -, -, hready⟩ := r.afterEchoes_eq
  have hechoed : r.echoPending.2.tally.echoed r.echoPending.2.thresholds.echoQuorum =
      r.tally.echoed r.thresholds.echoQuorum := by
    rw [hecho]
    rfl
  have hentries : r.afterEchoes.tally.readies.entries = r.tally.readies.entries := by
    rw [hready]
    rfl
  rw [← hentries, afterEchoes, ← hechoed]
  rfl

theorem acts_endOfRound {r : Replica} (hactive : r.isDelivered = false)
    (hproper : r.tally.Proper) : Acts r r.endOfRound.1 r.endOfRound.2 := by
  obtain ⟨signer, hecho⟩ := r.echoPending_snd
  obtain ⟨signer', readySent, -, -, hready⟩ := r.afterEchoes_eq
  have hfromEchoes : Acts r.echoPending.2
      (r.echoPending.2.readyFromEchoes (r.tally.echoed r.thresholds.echoQuorum)).1
      r.afterEchoes := by
    apply acts_readyFromEchoes
    · rw [hecho]
      exact hactive
    · rw [hecho]
      exact fun d hd => hproper.le_echoCount hd
  have hfromReadies : Acts r.afterEchoes
      (r.afterEchoes.readyFromReadies r.tally.readies.entries).1
      (r.afterEchoes.readyFromReadies r.tally.readies.entries).2 := by
    apply acts_readyFromReadies
    · rw [hready]
      exact hactive
    · rw [hready]
      exact fun e he => hproper.readyCount_of_mem he
  rw [endOfRound_eq]
  exact (acts_echoPending hactive).append (hfromEchoes.append hfromReadies)

-- All that an act can change. Only a delivery touches the blocks that were delivered before.
theorem Act.frame {r r' : Replica} {actions : List Action} (h : Act r actions r') :
    r.SameSetup r' ∧ r'.keyChain = r.keyChain ∧
      (r'.isDelivered = false → r'.finalized = r.finalized) := by
  cases h with
  | echo active pending =>
      obtain ⟨signer, hnext⟩ := vote_snd { r with tally := r.tally.clearSend } .echo _ Round.echo
      rw [hnext]
      exact ⟨⟨⟨rfl, rfl, rfl, rfl⟩, rfl⟩, rfl, fun _ => rfl⟩
  | @ready d round tally active mark call =>
      obtain ⟨signer, hnext⟩ := vote_snd { r with tally } .ready d round
      rw [hnext]
      exact ⟨⟨⟨rfl, rfl, rfl, rfl⟩, rfl⟩, rfl, fun _ => rfl⟩
  | deliver active declared enough =>
      refine ⟨⟨⟨rfl, rfl, rfl, rfl⟩, rfl⟩, rfl, fun hactive => ?_⟩
      simp [Replica.deliver, isDelivered, Tally.isDelivered, Tally.deliver] at hactive

theorem Act.isDelivered_before {r r' : Replica} {actions : List Action} (h : Act r actions r') :
    r.isDelivered = false := by
  cases h <;> assumption

theorem Act.sameSetup {r r' : Replica} {actions : List Action} (h : Act r actions r') :
    r.SameSetup r' :=
  h.frame.1

-- Nothing is left to act upon.
structure Settled (r : Replica) : Prop where
  pending : r.tally.pendingSend = none
  echoes : ∀ d, 0 < r.tally.echoCount d → r.thresholds.echoQuorum ≤ r.tally.echoCount d →
    d ∈ r.tally.readySent
  readies : ∀ d, r.thresholds.readyQuorum ≤ r.tally.readyCount d → d ∈ r.tally.readySent
  undelivered : ∀ d, ¬ r.thresholds.delivers (r.tally.readyCount d)

theorem settled_startRun (r : Replica) (view : LedgerView) : (r.startRun view).Settled where
  pending := rfl
  echoes := fun _ hpos => absurd hpos (by simp [startRun, Tally.start, Tally.echoCount])
  readies := fun _ hquorum => absurd hquorum (by
    simp [startRun, Tally.start, Tally.readyCount, Thresholds.readyQuorum])
  undelivered := by simp [startRun, Tally.start, Tally.readyCount, Thresholds.delivers]

theorem settled_endOfRound {r : Replica} (hend : r.endOfRound.2.isDelivered = false) :
    r.endOfRound.2.Settled := by
  obtain ⟨signer, readySent, hsent, -, hready⟩ := r.afterEchoes_eq
  rw [endOfRound_eq] at hend ⊢
  obtain ⟨signer', readySent', hgrow, hall, hnone, hlast⟩ := readyFromReadies_snd hend
  simp only at hlast ⊢
  rw [hlast]
  rw [hready] at hgrow hall hnone ⊢
  constructor
  · rfl
  · exact fun d hpos hle => hgrow (hsent d (Tally.mem_echoed hpos hle))
  · intro d hle
    exact hall _ (Tally.exists_mem_readies (pos_of_readyQuorum_le hle)) hle
  · intro d hdelivers
    have hpos := pos_of_readyQuorum_le (readyQuorum_le_of_delivers hdelivers)
    exact hnone _ (Tally.exists_mem_readies hpos) hdelivers

end QuorumLedger.Replica
