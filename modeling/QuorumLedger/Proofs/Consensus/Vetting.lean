import QuorumLedger.Proofs.Consensus.Readiness

namespace QuorumLedger

-- Whether a SEND for a block waits or there is a count for it.
def Tally.Mentions (t : Tally) (d : Digest) : Prop :=
  t.pendingSend = some d ∨ t.echoes.contains d = true ∨ t.readies.contains d = true

namespace Tally

variable {t : Tally} {kind : MessageKind} {d d' : Digest}

theorem not_mentions_start (d : Digest) : ¬ start.Mentions d := by
  simp [Mentions, start, Table.contains]

theorem Mentions.of_take (h : (t.take kind d).Mentions d') : d = d' ∨ t.Mentions d' := by
  by_cases hd : d = d'
  · exact .inl hd
  · obtain ⟨phase, -, heq⟩ := t.take_eq kind d
    rw [heq] at h
    refine .inr (h.imp (fun hp => ?_) (.imp (fun he => ?_) fun hr => ?_))
    · dsimp only at hp
      split at hp
      · exact absurd (Option.some.inj hp) hd
      · exact hp
    · dsimp only at he
      split at he
      · rwa [Table.contains_set_of_ne hd] at he
      · exact he
    · dsimp only at hr
      split at hr
      · rwa [Table.contains_set_of_ne hd] at hr
      · exact hr

theorem Mentions.of_clearSend (h : t.clearSend.Mentions d) : t.Mentions d :=
  .inr (h.resolve_left (by simp [clearSend]))

theorem Mentions.of_deliver (h : (t.deliver d).Mentions d') : t.Mentions d' :=
  h.imp id (.imp Table.contains_of_erase Table.contains_of_erase)

end Tally

-- How many of the messages are about a block, of whatever kind.
def votesOn (d : Digest) (messages : List Message) : Nat :=
  (votesFor .send d messages).length + (votesFor .echo d messages).length +
    (votesFor .ready d messages).length

theorem votesOn_append_singleton (d : Digest) (messages : List Message) (m : Message) :
    votesOn d (messages ++ [m]) = votesOn d messages + if m.blockId = d then 1 else 0 := by
  simp only [votesOn, length_votesFor_snoc]
  cases m.kind <;> simp <;> omega

theorem votesOn_eq_zero {d : Digest} {messages : List Message}
    (h : ∀ m ∈ messages, m.blockId ≠ d) : votesOn d messages = 0 := by
  have hnone : ∀ kind, votesFor kind d messages = [] := fun kind =>
    List.filter_eq_nil_iff.mpr fun m hm => by simp [h m hm]
  simp [votesOn, hnone]

namespace Replica

-- A block with votes was looked at in this run, and a block that was looked at is held with the
-- votes that counted for it. Other blocks that are held were delivered.
structure Vetted (seen : List Message) (r : Replica) : Prop where
  mentioned : ∀ d, r.tally.Mentions d → d ∈ r.verified
  passed : ∀ d ∈ r.verified, ∃ b, r.blocks.get? d = some b ∧ b.check r.view = .ok () ∧
    b.votes.length = votesOn d seen
  counted : ∀ m ∈ seen, m.blockId ∈ r.verified
  held : ∀ d, (r.blocks.get? d).isSome → d ∈ r.verified ∨ d ∈ r.finalized
  delivered : ∀ d ∈ r.delivered, d ∈ r.finalized

namespace Vetted

variable {seen : List Message} {r r' : Replica}

theorem create (id : ValidatorId) (role : Role) (t : Thresholds) (committee : List ValidatorId)
    (signer : Signer) : (create id role t committee signer).Vetted [] where
  mentioned := fun d h => absurd h (Tally.not_mentions_start d)
  passed := by simp [Replica.create]
  counted := by simp
  held := by simp [Replica.create]
  delivered := by simp [Replica.create]

theorem startRun (h : r.Vetted seen) (view : LedgerView) : (r.startRun view).Vetted [] where
  mentioned := fun d hd => absurd hd (Tally.not_mentions_start d)
  passed := by simp [Replica.startRun]
  counted := by simp
  held := by
    intro d hd
    simp only [Replica.startRun, Table.get?_retain] at hd
    split at hd
    · rename_i hkept
      exact .inr (h.delivered d (of_decide_eq_true hkept))
    · cases hd
  delivered := h.delivered

-- What touches neither the blocks nor the cache may drop votes and deliver.
theorem congr (h : r.Vetted seen) (hview : r'.view = r.view) (hverified : r'.verified = r.verified)
    (hblocks : r'.blocks = r.blocks) (hmentions : ∀ d, r'.tally.Mentions d → r.tally.Mentions d)
    (hfinal : r.finalized ⊆ r'.finalized) (hdelivered : r'.delivered ⊆ r'.finalized) :
    r'.Vetted seen where
  mentioned := fun d hd => hverified ▸ h.mentioned d (hmentions d hd)
  passed := by
    rw [hverified, hblocks, hview]
    exact h.passed
  counted := hverified ▸ h.counted
  held := by
    intro d hd
    rw [hblocks] at hd
    exact (h.held d hd).imp (fun hv => hverified ▸ hv) fun hf => hfinal hf
  delivered := fun d hd => hdelivered hd

theorem takeDelivered (h : r.Vetted seen) : r.takeDelivered.2.Vetted seen :=
  h.congr rfl rfl rfl (fun _ hd => hd) (List.Subset.refl _) (by simp [Replica.takeDelivered])

theorem following (h : r.Vetted seen) (m : Message) : (r.following m).Vetted seen :=
  h.congr rfl rfl rfl (fun _ hd => hd) (List.Subset.refl _) h.delivered

theorem withTally (h : r.Vetted seen) (signer : Signer) {tally : Tally}
    (hmentions : ∀ d, tally.Mentions d → r.tally.Mentions d) :
    { r with signer, tally }.Vetted seen :=
  h.congr rfl rfl rfl hmentions (List.Subset.refl _) h.delivered

theorem act (h : r.Vetted seen) {actions : List Action} (hact : Act r actions r') :
    r'.Vetted seen := by
  cases hact with
  | @echo d active pending =>
      obtain ⟨signer, hnext⟩ := vote_snd { r with tally := r.tally.clearSend } .echo d Round.echo
      rw [hnext]
      exact h.withTally signer fun _ => Tally.Mentions.of_clearSend
  | @ready d round tally active mark call =>
      obtain ⟨-, rfl⟩ := Tally.markReady_eq_true mark
      obtain ⟨signer, hnext⟩ := vote_snd
        { r with tally := { r.tally with readySent := d :: r.tally.readySent } } .ready d round
      rw [hnext]
      exact h.withTally signer fun _ hd => hd
  | @deliver d active declared enough =>
      refine h.congr rfl rfl rfl (fun _ => Tally.Mentions.of_deliver) (List.subset_cons_self d _) ?_
      exact List.append_subset.mpr
        ⟨fun d' hd' => List.mem_cons_of_mem d (h.delivered d' hd'), by simp [Replica.deliver]⟩

-- The first copy that counts is the one that was looked at, since no other is held yet.
theorem base_of_not_mem (h : r.Vetted seen) {m : Message} {s : Seal} (hs : r.Accepts m s)
    (hnew : m.blockId ∉ r.verified) :
    r.blocks.get? m.blockId = none ∧ m.block.check r.view = .ok () ∧
      votesOn m.blockId seen = 0 := by
  refine ⟨?_, Block.isValid_iff.mp (hs.passes.resolve_left hnew), votesOn_eq_zero fun m' hm' he =>
    hnew (he ▸ h.counted m' hm')⟩
  rw [Option.eq_none_iff_forall_ne_some]
  intro b hb
  exact (h.held m.blockId (by simp [hb])).elim hnew hs.pending

theorem mem_verified_counting {m : Message} {s : Seal} {d : Digest} :
    d ∈ (r.counting m s).verified ↔ d = m.blockId ∨ d ∈ r.verified := by
  simp only [Replica.counting]
  split
  · rename_i hold
    exact ⟨.inr, fun hd => hd.elim (fun he => he ▸ hold) fun hv => hv⟩
  · exact List.mem_cons

theorem counting (h : r.Vetted seen) {m : Message} {s : Seal} (hs : r.Accepts m s) :
    (r.counting m s).Vetted (seen ++ [m]) where
  mentioned := fun d hd => mem_verified_counting.mpr
    ((Tally.Mentions.of_take hd).imp (fun he => he.symm) (h.mentioned d))
  passed := by
    intro d hd
    rw [votesOn_append_singleton]
    simp only [Replica.counting, Table.get?_set]
    by_cases hid : m.blockId = d
    · subst hid
      simp only [if_true]
      refine ⟨_, rfl, ?_⟩
      by_cases hold : m.blockId ∈ r.verified
      · obtain ⟨b, hb, hpasses, hvotes⟩ := h.passed _ hold
        rw [hb]
        exact ⟨((Block.collect_agrees _ _).check _).trans hpasses, by
          simp [Block.collect, hvotes]⟩
      · obtain ⟨hnone, hpasses, hvotes⟩ := h.base_of_not_mem hs hold
        rw [hnone]
        exact ⟨((Block.collect_agrees _ _).trans m.block.withoutVotes_agrees).check _ |>.trans
          hpasses, by simp [Block.collect, Block.withoutVotes, hvotes]⟩
    · simp only [if_neg hid, Nat.add_zero]
      exact h.passed d ((mem_verified_counting.mp hd).resolve_left fun he => hid he.symm)
  counted := by
    intro m' hm'
    rcases List.mem_append.mp hm' with hm' | hm'
    · exact mem_verified_counting.mpr (.inr (h.counted m' hm'))
    · exact mem_verified_counting.mpr (.inl (congrArg _ (List.mem_singleton.mp hm')))
  held := by
    intro d hd
    by_cases hid : m.blockId = d
    · exact .inl (mem_verified_counting.mpr (.inl hid.symm))
    · simp only [Replica.counting, Table.get?_set, if_neg hid] at hd
      exact (h.held d hd).imp_left fun hv => mem_verified_counting.mpr (.inr hv)
  delivered := h.delivered

theorem outcome (h : r.Vetted seen) (hproper : r.tally.Proper) (batch : List Message) :
    (r.outcome batch).2.Vetted (seen ++ r.counted batch) :=
  outcome_induct (I := fun seen _ r => r.Vetted seen) batch seen []
    (fun _ _ _ _ _ _ h hs => h.counting hs) (fun _ _ _ m h => h.following m)
    (fun _ _ _ _ _ h hact => h.act hact) hproper h
    fun _ => h.withTally r.signer fun _ => Tally.Mentions.of_clearSend

end Vetted

-- The end of a round once more, stopping where a block that is voted on or delivered is not held.
section Strict

def voteHeld? (r : Replica) (kind : MessageKind) (d : Digest) (round : UInt16) :
    Option (List Action × Replica) :=
  if r.blocks.contains d then some (r.vote kind d round) else none

def echoPendingHeld? (r : Replica) : Option (List Action × Replica) :=
  match r.tally.pendingSend with
  | none => some ([], r)
  | some d => { r with tally := r.tally.clearSend }.voteHeld? .echo d Round.echo

def declareReadyHeld? (r : Replica) (d : Digest) (round : UInt16) :
    Option (List Action × Replica) :=
  match r.tally.markReady d with
  | (false, _) => some ([], r)
  | (true, tally) => { r with tally }.voteHeld? .ready d round

def readyFromEchoesHeld? (r : Replica) : List Digest → Option (List Action × Replica)
  | [] => some ([], r)
  | d :: rest => do
    let (now, r) ← r.declareReadyHeld? d Round.readyFromEcho
    let (later, r) ← readyFromEchoesHeld? r rest
    pure (now ++ later, r)

def deliverHeld? (r : Replica) (d : Digest) : Option (List Action × Replica) :=
  if r.blocks.contains d then some (r.deliver d) else none

def amplifyHeld? (r : Replica) (d : Digest) (count : Nat) : Option (List Action × Replica) :=
  if r.thresholds.readyQuorum ≤ count then r.declareReadyHeld? d Round.readyFromReady
  else some ([], r)

def readyFromReadiesHeld? (r : Replica) : List (Digest × Nat) → Option (List Action × Replica)
  | [] => some ([], r)
  | (d, count) :: rest => do
    let (now, r) ← r.amplifyHeld? d count
    if r.thresholds.delivers count then
      let (last, r) ← r.deliverHeld? d
      pure (now ++ last, r)
    else
      let (later, r) ← readyFromReadiesHeld? r rest
      pure (now ++ later, r)

def endOfRoundHeld? (r : Replica) : Option (List Action × Replica) := do
  let (echo, r) ← r.echoPendingHeld?
  let (ready, r) ← r.readyFromEchoesHeld? (r.tally.echoed r.thresholds.echoQuorum)
  let (more, r) ← r.readyFromReadiesHeld? r.tally.readies.entries
  pure (echo ++ (ready ++ more), r)

def handleBatchHeld? (r : Replica) (batch : List Message) : Option (List Action × Replica) :=
  if !r.role.participates then some ([], r)
  else if r.isDelivered then some ([], r.onMessages batch)
  else do
    let (actions, r) ← (r.processBatch batch).endOfRoundHeld?
    pure (r.role.shape r.id r.committee actions, r)

variable {r : Replica}

theorem voteHeld?_eq {d : Digest} (h : (r.blocks.get? d).isSome) (kind : MessageKind)
    (round : UInt16) : r.voteHeld? kind d round = some (r.vote kind d round) :=
  if_pos h

theorem echoPendingHeld?_eq (h : ∀ d, r.tally.pendingSend = some d → (r.blocks.get? d).isSome) :
    r.echoPendingHeld? = some r.echoPending := by
  unfold echoPendingHeld? echoPending
  cases hpending : r.tally.pendingSend with
  | none => rfl
  | some d => exact voteHeld?_eq (r := { r with tally := r.tally.clearSend }) (h d hpending) _ _

theorem declareReadyHeld?_eq {d : Digest} (h : (r.blocks.get? d).isSome) (round : UInt16) :
    r.declareReadyHeld? d round = some (r.declareReady d round) := by
  unfold declareReadyHeld? declareReady
  cases r.tally.markReady d with
  | mk new tally =>
      cases new with
      | false => rfl
      | true => exact voteHeld?_eq (r := { r with tally }) h _ _

theorem readyFromEchoesHeld?_eq {ds : List Digest} (h : ∀ d ∈ ds, (r.blocks.get? d).isSome) :
    r.readyFromEchoesHeld? ds = some (r.readyFromEchoes ds) := by
  induction ds generalizing r with
  | nil => rfl
  | cons d rest ih =>
      obtain ⟨hd, hrest⟩ := List.forall_mem_cons.mp h
      obtain ⟨signer, hnext⟩ := r.declareReady_snd d Round.readyFromEcho
      have hlater := ih (r := (r.declareReady d Round.readyFromEcho).2) (by rw [hnext]; exact hrest)
      simp only [readyFromEchoesHeld?, declareReadyHeld?_eq hd, Option.bind_eq_bind,
        Option.bind_some, hlater]
      rfl

theorem amplifyHeld?_eq {d : Digest} {count : Nat}
    (h : r.thresholds.readyQuorum ≤ count → (r.blocks.get? d).isSome) :
    r.amplifyHeld? d count = some (r.amplify d count) := by
  unfold amplifyHeld? amplify
  split
  · next hready => exact declareReadyHeld?_eq (h hready) _
  · rfl

theorem readyFromReadiesHeld?_eq {counts : List (Digest × Nat)}
    (h : ∀ e ∈ counts, r.thresholds.readyQuorum ≤ e.2 → (r.blocks.get? e.1).isSome) :
    r.readyFromReadiesHeld? counts = some (r.readyFromReadies counts) := by
  induction counts generalizing r with
  | nil => rfl
  | cons e rest ih =>
      obtain ⟨d, count⟩ := e
      obtain ⟨hd, hrest⟩ := List.forall_mem_cons.mp h
      obtain ⟨signer, readySent, -, -, hnext⟩ := r.amplify_snd d count
      have hsame : (r.amplify d count).2.thresholds = r.thresholds ∧
          (r.amplify d count).2.blocks = r.blocks := by
        rw [hnext]
        exact ⟨rfl, rfl⟩
      have hlater := ih (r := (r.amplify d count).2) (by rw [hsame.1, hsame.2]; exact hrest)
      rw [readyFromReadies_cons]
      simp only [readyFromReadiesHeld?, amplifyHeld?_eq hd, Option.bind_eq_bind, Option.bind_some,
        hlater]
      split
      · next hdelivers =>
        rw [hsame.1] at hdelivers
        have hheld : (r.amplify d count).2.blocks.contains d = true := by
          rw [hsame.2]
          exact hd (readyQuorum_le_of_delivers hdelivers)
        simp only [deliverHeld?, hheld, if_true, Option.bind_some]
        rfl
      · rfl

-- Every block that has votes is stored.
theorem Stores.endOfRoundHeld?_eq {P : Block → Prop} (h : r.Stores P) :
    r.endOfRoundHeld? = some r.endOfRound := by
  obtain ⟨signer, hecho⟩ := r.echoPending_snd
  have hechoes : r.echoPending.2.readyFromEchoesHeld?
      (r.echoPending.2.tally.echoed r.echoPending.2.thresholds.echoQuorum) =
      some (r.echoPending.2.readyFromEchoes
        (r.echoPending.2.tally.echoed r.echoPending.2.thresholds.echoQuorum)) := by
    apply readyFromEchoesHeld?_eq
    rw [hecho]
    exact fun d hd => h.echoes d (h.proper.le_echoCount hd).1
  have hreadies : ∀ signer readySent,
      let r' : Replica := { r with signer, tally := { r.tally.clearSend with readySent } }
      r'.readyFromReadiesHeld? r'.tally.readies.entries =
        some (r'.readyFromReadies r'.tally.readies.entries) := by
    intro signer readySent r'
    refine readyFromReadiesHeld?_eq fun e he hquorum => h.readies e.1 ?_
    rw [h.proper.readyCount_of_mem he]
    exact pos_of_readyQuorum_le hquorum
  obtain ⟨signer', readySent, -, -, hready⟩ := r.echoPending.2.readyFromEchoes_snd
    (r.echoPending.2.tally.echoed r.echoPending.2.thresholds.echoQuorum)
  rw [hecho] at hready
  unfold endOfRoundHeld? endOfRound
  simp only [echoPendingHeld?_eq h.pending, Option.bind_eq_bind, Option.bind_some, hechoes]
  rw [hecho, hready, hreadies signer' readySent]
  rfl

theorem Stores.handleBatchHeld?_eq (h : r.Stores fun _ => True) (batch : List Message) :
    r.handleBatchHeld? batch = some (r.handleBatch batch) := by
  have hread : (r.processBatch batch).Stores fun _ => True :=
    onMessages_induct (I := fun _ r' => r'.Stores fun _ => True) batch []
      (fun _ _ _ _ _ h _ => h.counting (fun _ _ _ _ => trivial) trivial)
      (fun _ _ m h => h.following m) h.clearSend
  unfold handleBatchHeld? handleBatch
  split
  · rfl
  · split
    · rfl
    · rw [hread.endOfRoundHeld?_eq]
      rfl

end Strict

end Replica

namespace Session

-- What stands behind the votes of a session.
structure Vetted (s : Session) : Prop where
  stores : s.replica.Stores fun _ => True
  replica : s.replica.Vetted s.counted

theorem Vetted.answer {s : Session} (h : s.Vetted) (c : Replica.Call) : (s.answer c).Vetted := by
  have hstores := h.stores.answer_any c
  cases c with
  | startRun view => exact ⟨hstores, h.replica.startRun view⟩
  | takeDelivered =>
      rw [answer_takeDelivered]
      exact ⟨hstores, h.replica.takeDelivered⟩
  | propose b =>
      obtain ⟨signer, hnext⟩ := s.replica.propose_snd b
      rw [hnext] at hstores
      rw [answer_propose, hnext]
      exact ⟨hstores, h.replica.withTally signer fun _ hd => hd⟩
  | batch messages =>
      cases hrole : s.replica.role.participates with
      | false =>
          rw [answer_batch_of_crash hrole]
          exact h
      | true =>
          rw [Replica.answer_batch h.stores.proper, hrole] at hstores
          rw [answer_batch_of_participates h.stores.proper hrole]
          exact ⟨hstores, h.replica.outcome h.stores.proper messages⟩

theorem Vetted.run {s : Session} (h : s.Vetted) (calls : List Replica.Call) :
    (s.run calls).Vetted := by
  induction calls generalizing s with
  | nil => exact h
  | cons c rest ih => exact ih (h.answer c)

-- The session of a replica that was asked for nothing yet.
def create (seat : Seat) (v : ValidatorId) : Session :=
  ⟨seat.replica v, [], []⟩

-- A message counts only for a block that was looked at in the run, and the copy that was looked at
-- is the one that is stored: a block held from an earlier run was delivered there, and no message
-- for it counts again.
theorem vetted_of_mentions (seat : Seat) (v : ValidatorId) (calls : List Replica.Call) :
    let s := (create seat v).run calls
    (∀ d, s.replica.tally.Mentions d →
      d ∈ s.replica.verified ∧
        ∃ b, s.replica.blocks.get? d = some b ∧ b.id = d ∧ b.check s.replica.view = .ok () ∧
          b.votes.length = (votesFor .send d s.counted).length +
            (votesFor .echo d s.counted).length + (votesFor .ready d s.counted).length) ∧
      ∀ batch, s.replica.handleBatchHeld? batch = some (s.replica.handleBatch batch) := by
  intro s
  have hcreate : (create seat v).Vetted :=
    ⟨Replica.stores_create _ _ _ _ _, .create _ _ _ _ _⟩
  have h : s.Vetted := hcreate.run calls
  refine ⟨fun d hd => ?_, h.stores.handleBatchHeld?_eq⟩
  have hverified := h.replica.mentioned d hd
  obtain ⟨b, hb, hpasses, hvotes⟩ := h.replica.passed d hverified
  exact ⟨hverified, b, hb, (h.stores.blocks d b hb).1, hpasses, hvotes⟩

-- One ECHO and one READY, which are too few to deliver.
def fewVotes : List Replica.Call :=
  [.startRun ⟨∅, []⟩,
    .batch [{ Replica.readyOf ⟨0⟩ with kind := .echo }, Replica.readyOf ⟨1⟩]]

theorem vetted_of_mentions_few :
    let s := (create Replica.pairSeat ⟨2⟩).run fewVotes
    s.replica.tally.Mentions Block.blank.id ∧
      ∃ b, s.replica.blocks.get? Block.blank.id = some b ∧ b.votes.length = 2 := by
  intro s
  have hmentions : s.replica.tally.Mentions Block.blank.id := .inr (.inl (by decide +kernel))
  have hvotes : (votesFor .send Block.blank.id s.counted).length +
      (votesFor .echo Block.blank.id s.counted).length +
      (votesFor .ready Block.blank.id s.counted).length = 2 := by decide +kernel
  obtain ⟨-, b, hb, -, -, hcount⟩ :=
    (vetted_of_mentions Replica.pairSeat ⟨2⟩ fewVotes).1 _ hmentions
  exact ⟨hmentions, b, hb, hcount.trans hvotes⟩

end Session

end QuorumLedger
