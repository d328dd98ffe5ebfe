import QuorumLedger.Proofs.Consensus.Repetition

namespace QuorumLedger

namespace Tally

-- Whether the votes for a block call for a READY.
def Calls (t : Tally) (th : Thresholds) (d : Digest) : Prop :=
  (0 < t.echoCount d ∧ th.echoQuorum ≤ t.echoCount d) ∨ th.readyQuorum ≤ t.readyCount d

instance (t : Tally) (th : Thresholds) (d : Digest) : Decidable (t.Calls th d) :=
  inferInstanceAs (Decidable (_ ∨ _))

theorem Calls.mono {t t' : Tally} {th : Thresholds} {d : Digest} (h : t.Calls th d)
    (hechoes : t.echoCount d ≤ t'.echoCount d) (hreadies : t.readyCount d ≤ t'.readyCount d) :
    t'.Calls th d :=
  h.imp (fun he => ⟨Nat.lt_of_lt_of_le he.1 hechoes, Nat.le_trans he.2 hechoes⟩)
    fun hr => Nat.le_trans hr hreadies

-- What votes for a single block come to once all that they call for was done.
def concluded (t : Tally) (th : Thresholds) (d : Digest) : Tally :=
  if th.delivers (t.readyCount d) then ⟨∅, ∅, [d], none, some d, .delivered⟩
  else { t with pendingSend := none, readySent := if t.Calls th d then [d] else [] }

theorem isDelivered_concluded {t : Tally} (h : t.isDelivered = false) (th : Thresholds)
    (d : Digest) : (t.concluded th d).isDelivered = th.delivers (t.readyCount d) := by
  unfold concluded
  split
  · next hdelivers =>
    rw [hdelivers]
    rfl
  · next hdelivers =>
    rw [Bool.eq_false_iff.mpr hdelivers]
    exact h

-- A table with nothing but a count for one block.
def lone (d : Digest) : Nat → Table Digest Nat
  | 0 => ∅
  | n + 1 => ⟨[(d, n + 1)]⟩

-- Whether there are votes for no other block.
structure OnlyFor (t : Tally) (d : Digest) : Prop where
  echoes : t.echoes = lone d (t.echoCount d)
  readies : t.readies = lone d (t.readyCount d)

theorem set_lone (d : Digest) (n : Nat) : (lone d n).set d (n + 1) = lone d (n + 1) := by
  cases n <;> simp [lone, Table.set, Table.put, EmptyCollection.emptyCollection, Table.empty]

theorem erase_lone (d : Digest) (n : Nat) : (lone d n).erase d = ∅ := by
  cases n <;> simp [lone, Table.erase, EmptyCollection.emptyCollection, Table.empty]

theorem onlyFor_start (d : Digest) : start.OnlyFor d :=
  ⟨rfl, rfl⟩

theorem OnlyFor.take {t : Tally} {d : Digest} (h : t.OnlyFor d) (kind : MessageKind) :
    (t.take kind d).OnlyFor d := by
  obtain ⟨phase, -, heq⟩ := t.take_eq kind d
  constructor
  · rw [echoCount_take, heq]
    by_cases hk : kind = .echo
    · simp only [hk, if_true, and_self]
      rw [← set_lone, ← h.echoes]
    · simpa [hk] using h.echoes
  · rw [readyCount_take, heq]
    by_cases hk : kind = .ready
    · simp only [hk, if_true, and_self]
      rw [← set_lone, ← h.readies]
    · simpa [hk] using h.readies

theorem OnlyFor.echoed {t : Tally} {d : Digest} (h : t.OnlyFor d) (quorum : Nat) :
    t.echoed quorum = if 0 < t.echoCount d ∧ quorum ≤ t.echoCount d then [d] else [] := by
  unfold Tally.echoed
  rw [h.echoes]
  cases t.echoCount d with
  | zero => rfl
  | succ n => by_cases hq : quorum ≤ n + 1 <;> simp [lone, hq]

theorem OnlyFor.concluded_eq {t : Tally} {th : Thresholds} {d : Digest} (h : t.OnlyFor d)
    {sent : List Digest} (hsent : sent = if t.Calls th d then [d] else []) :
    (if th.delivers (t.readyCount d) then { t.clearSend with readySent := sent }.deliver d
      else { t.clearSend with readySent := sent }) = t.concluded th d := by
  unfold concluded
  split
  · next hdelivers =>
    have hcalls : t.Calls th d := .inr (Replica.readyQuorum_le_of_delivers hdelivers)
    rw [if_pos hcalls] at hsent
    have hechoes : t.echoes.erase d = ∅ := h.echoes ▸ erase_lone d _
    have hreadies : t.readies.erase d = ∅ := h.readies ▸ erase_lone d _
    simp only [deliver, clearSend, hechoes, hreadies, hsent]
  · rw [hsent]
    rfl

-- Counting a message looks neither at a SEND that waits nor at what was sent.
theorem take_withSent (t : Tally) (pendingSend : Option Digest) (readySent : List Digest)
    (kind : MessageKind) (d : Digest) :
    ∃ pendingSend', { t with pendingSend, readySent }.take kind d =
      { t.take kind d with pendingSend := pendingSend', readySent } := by
  cases kind with
  | ready => exact ⟨pendingSend, rfl⟩
  | send =>
      refine ⟨some d, ?_⟩
      by_cases hw : t.phase = .waiting <;> simp [take, recordSend, startVoting, hw]
  | echo =>
      refine ⟨pendingSend, ?_⟩
      by_cases hw : t.phase = .waiting <;>
        simp [take, recordEcho, startVoting, echoCount, hw]

end Tally

namespace Replica

-- Two replicas with which the same messages count, and one of which acted in the meantime.
structure ReadsAlike (readySent : List Digest) (r r' : Replica) : Prop where
  setup : r.SameSetup r'
  keyChain : r'.keyChain = r.keyChain
  verified : r'.verified = r.verified
  finalized : r'.finalized = r.finalized
  tally : ∃ pendingSend, r'.tally = { r.tally with pendingSend, readySent }

variable {q r p : Replica} {d : Digest} {readySent : List Digest}

theorem ReadsAlike.accepts (h : q.ReadsAlike readySent r) (m : Message) (s : Seal) :
    r.Accepts m s ↔ q.Accepts m s := by
  constructor
  · intro hs
    exact ⟨hs.sealedBy, h.keyChain ▸ hs.accepted, h.finalized ▸ hs.pending,
      h.verified ▸ h.setup.view ▸ hs.passes⟩
  · intro hs
    exact ⟨hs.sealedBy, h.keyChain ▸ hs.accepted, h.finalized ▸ hs.pending,
      h.verified ▸ h.setup.view ▸ hs.passes⟩

theorem ReadsAlike.isDelivered (h : q.ReadsAlike readySent r) : r.isDelivered = q.isDelivered := by
  obtain ⟨pendingSend, htally⟩ := h.tally
  rw [Replica.isDelivered, htally]
  rfl

theorem ReadsAlike.onMessage (h : q.ReadsAlike readySent r) (m : Message) :
    (q.onMessage m).2.ReadsAlike readySent (r.onMessage m).2 := by
  by_cases haccepts : ∃ s, q.Accepts m s
  · obtain ⟨s, hs⟩ := haccepts
    rw [onMessage_of_accepts hs, onMessage_of_accepts ((h.accepts m s).mpr hs)]
    obtain ⟨pendingSend, htally⟩ := h.tally
    refine ⟨(q.counting_sameSetup m s).symm.trans (h.setup.trans (r.counting_sameSetup m s)),
      ?_, ?_, h.finalized, ?_⟩
    · simp only [counting, h.keyChain]
    · simp only [counting, h.verified]
    · simp only [counting, htally]
      exact q.tally.take_withSent pendingSend readySent m.kind m.blockId
  · have hno := not_exists.mp haccepts
    have hno' : ∀ s, ¬ r.Accepts m s := fun s hs => hno s ((h.accepts m s).mp hs)
    rw [onMessage_of_not_accepts hno, onMessage_of_not_accepts hno']
    refine ⟨(q.following_sameSetup m).symm.trans (h.setup.trans (r.following_sameSetup m)),
      ?_, h.verified, h.finalized, h.tally⟩
    simp only [following, h.keyChain]

theorem ReadsAlike.onMessages (h : q.ReadsAlike readySent r) (batch : List Message) :
    (q.onMessages batch).ReadsAlike readySent (r.onMessages batch) := by
  induction batch generalizing q r with
  | nil => exact h
  | cons m rest ih => exact ih (h.onMessage m)

theorem onMessages_onlyFor (h : q.tally.OnlyFor d) {batch : List Message}
    (hbatch : ∀ m ∈ batch, m.blockId = d) : (q.onMessages batch).tally.OnlyFor d :=
  onMessages_induct (I := fun _ q' => q'.tally.OnlyFor d) batch []
    (fun _ _ m _ hm h _ => hbatch m hm ▸ (hbatch m hm ▸ h).take m.kind) (fun _ _ _ h => h) h

-- Reading takes no vote away.
theorem counts_le_onMessages (q : Replica) (d : Digest) (batch : List Message) :
    q.tally.echoCount d ≤ (q.onMessages batch).tally.echoCount d ∧
      q.tally.readyCount d ≤ (q.onMessages batch).tally.readyCount d :=
  onMessages_induct (I := fun _ q' => q.tally.echoCount d ≤ q'.tally.echoCount d ∧
      q.tally.readyCount d ≤ q'.tally.readyCount d) batch []
    (fun _ q' m s _ h _ => by
      simp only [counting, Tally.echoCount_take, Tally.readyCount_take]
      omega)
    (fun _ _ _ h => h) ⟨Nat.le_refl _, Nat.le_refl _⟩

-- Votes for a delivered block move key chains on, and that is all.
theorem onMessages_of_finalized {batch : List Message} (h : ∀ m ∈ batch, m.blockId ∈ r.finalized) :
    r.onMessages batch = { r with keyChain := r.keyChain.follow batch } := by
  induction batch generalizing r with
  | nil => rfl
  | cons m rest ih =>
      obtain ⟨hm, hrest⟩ := List.forall_mem_cons.mp h
      have hno : ∀ s, ¬ r.Accepts m s := fun s hs => hs.pending hm
      change (r.onMessage m).2.onMessages rest = _
      rw [onMessage_of_not_accepts hno]
      exact ih (r := r.following m) hrest

theorem afterEchoes_of_onlyFor (h : p.tally.OnlyFor d) :
    ∃ signer, p.afterEchoes =
      { p with
        signer
        tally := { p.tally.clearSend with
          readySent :=
            if 0 < p.tally.echoCount d ∧ p.thresholds.echoQuorum ≤ p.tally.echoCount d then
              p.tally.readySent.insert d
            else p.tally.readySent } } := by
  obtain ⟨signer, hecho⟩ := p.echoPending_snd
  unfold afterEchoes
  rw [h.echoed, hecho]
  split
  · obtain ⟨signer', hnext⟩ := declareReady_snd
      { p with signer, tally := p.tally.clearSend } d Round.readyFromEcho
    exact ⟨signer', hnext⟩
  · exact ⟨signer, rfl⟩

theorem readyFromReadies_lone (r : Replica) (d : Digest) (n : Nat) :
    ∃ signer delivered readySent,
      readySent = (if r.thresholds.readyQuorum ≤ n then r.tally.readySent.insert d
        else r.tally.readySent) ∧
      (r.readyFromReadies (Tally.lone d n).entries).2 =
        { r with
          signer
          delivered
          tally :=
            if r.thresholds.delivers n then { r.tally with readySent }.deliver d
            else { r.tally with readySent }
          finalized := if r.thresholds.delivers n then d :: r.finalized else r.finalized } := by
  cases n with
  | zero =>
      have hquorum : ¬ r.thresholds.readyQuorum ≤ 0 := by simp [Thresholds.readyQuorum]
      have hdelivers : ¬ r.thresholds.delivers 0 := by simp [Thresholds.delivers]
      refine ⟨r.signer, r.delivered, _, rfl, ?_⟩
      rw [if_neg hquorum, if_neg hdelivers, if_neg hdelivers]
      rfl
  | succ n =>
      have hamplify : ∃ signer, (r.amplify d (n + 1)).2 =
          { r with
            signer
            tally := { r.tally with
              readySent :=
                if r.thresholds.readyQuorum ≤ n + 1 then r.tally.readySent.insert d
                else r.tally.readySent } } := by
        unfold amplify
        split
        · exact r.declareReady_snd d Round.readyFromReady
        · exact ⟨r.signer, rfl⟩
      obtain ⟨signer, hnext⟩ := hamplify
      change ∃ signer delivered readySent, readySent = _ ∧
        (r.readyFromReadies [(d, n + 1)]).2 = _
      rw [readyFromReadies_cons, hnext]
      by_cases hdelivers : r.thresholds.delivers (n + 1)
      · refine ⟨signer, r.delivered ++ [d], _, rfl, ?_⟩
        simp only [hdelivers, if_true]
        rfl
      · refine ⟨signer, r.delivered, _, rfl, ?_⟩
        simp only [hdelivers, if_false, Bool.false_eq_true]
        rfl

-- Marking a block once more leaves one mark.
theorem insert_insert_eq {sent : List Digest} {E R : Prop} [Decidable E] [Decidable R]
    (h : sent = [] ∨ (sent = [d] ∧ (E ∨ R))) :
    (if R then (if E then sent.insert d else sent).insert d
      else if E then sent.insert d else sent) = if E ∨ R then [d] else [] := by
  rcases h with rfl | ⟨rfl, hcalled⟩
  · by_cases hE : E <;> by_cases hR : R <;> simp [hE, hR]
  · by_cases hE : E <;> by_cases hR : R <;> simp_all

-- At the end of a round all that the votes for the one block call for is done.
theorem endOfRound_of_onlyFor (h : p.tally.OnlyFor d)
    (hsent : p.tally.readySent = [] ∨
      (p.tally.readySent = [d] ∧ p.tally.Calls p.thresholds d)) :
    ∃ signer delivered, p.endOfRound.2 =
      { p with
        signer
        delivered
        tally := p.tally.concluded p.thresholds d
        finalized :=
          if p.thresholds.delivers (p.tally.readyCount d) then d :: p.finalized
          else p.finalized } := by
  obtain ⟨signer, hechoes⟩ := afterEchoes_of_onlyFor h
  obtain ⟨signer', delivered, sent, hmarked, hreadies⟩ :=
    p.afterEchoes.readyFromReadies_lone d (p.tally.readyCount d)
  rw [hechoes] at hmarked hreadies
  have hcalls : sent = if p.tally.Calls p.thresholds d then [d] else [] :=
    hmarked.trans (insert_insert_eq hsent)
  refine ⟨signer', delivered, ?_⟩
  rw [endOfRound_eq, h.readies, hechoes, ← h.concluded_eq hcalls]
  exact hreadies

theorem handleBatch_snd (h : r.role.participates = true) (batch : List Message) :
    (r.handleBatch batch).2 = (r.outcome batch).2 := by
  unfold handleBatch outcome
  rw [h]
  cases r.isDelivered <;> rfl

-- Where a replica stands that acted after every batch, beside one that read the same messages and
-- never acted.
structure InStep (d : Digest) (q r : Replica) : Prop where
  setup : q.SameSetup r
  keyChain : r.keyChain = q.keyChain
  tally : r.tally = q.tally.concluded q.thresholds d
  reads : r.isDelivered = false → r.verified = q.verified ∧ r.finalized = q.finalized
  closed : r.isDelivered = true → d ∈ r.finalized

-- The end of a round does whatever all the votes call for.
theorem ReadsAlike.endOfRound (h : q.ReadsAlike readySent p) (hactive : q.isDelivered = false)
    (hlone : q.tally.OnlyFor d)
    (hsent : readySent = [] ∨ (readySent = [d] ∧ q.tally.Calls q.thresholds d)) :
    InStep d q p.endOfRound.2 := by
  obtain ⟨pendingSend, hcounts⟩ := h.tally
  have hlone' : p.tally.OnlyFor d := by
    rw [hcounts]
    exact ⟨hlone.echoes, hlone.readies⟩
  have hsent' : p.tally.readySent = [] ∨
      (p.tally.readySent = [d] ∧ p.tally.Calls p.thresholds d) := by
    rw [hcounts, h.setup.thresholds]
    exact hsent
  have hconcluded : p.tally.concluded p.thresholds d = q.tally.concluded q.thresholds d := by
    rw [hcounts, h.setup.thresholds]
    rfl
  have hdelivers := Tally.isDelivered_concluded (h.isDelivered.trans hactive) p.thresholds d
  obtain ⟨signer, delivered, hend⟩ := endOfRound_of_onlyFor hlone' hsent'
  rw [hend]
  refine ⟨h.setup.trans ⟨⟨rfl, rfl, rfl, rfl⟩, rfl⟩, h.keyChain, hconcluded, fun hnot => ?_,
    fun hover => ?_⟩
  · have hfew : p.thresholds.delivers (p.tally.readyCount d) = false := hdelivers ▸ hnot
    simp only [hfew, Bool.false_eq_true, if_false]
    exact ⟨h.verified, h.finalized⟩
  · have hmany : p.thresholds.delivers (p.tally.readyCount d) = true := hdelivers ▸ hover
    simp only [hmany, if_true]
    exact List.mem_cons_self

namespace InStep

theorem isDelivered (h : InStep d q r) (hactive : q.isDelivered = false) :
    r.isDelivered = q.thresholds.delivers (q.tally.readyCount d) := by
  rw [Replica.isDelivered, h.tally]
  exact Tally.isDelivered_concluded hactive q.thresholds d

-- Once the block is delivered, further votes for it change nothing on either side.
theorem outcome_of_isDelivered (h : InStep d q r) (hactive : q.isDelivered = false)
    (hover : r.isDelivered = true) {batch : List Message} (hbatch : ∀ m ∈ batch, m.blockId = d) :
    InStep d (q.onMessages batch) (r.outcome batch).2 := by
  have hfinal : ∀ m ∈ batch, m.blockId ∈ r.finalized := fun m hm => hbatch m hm ▸ h.closed hover
  have hread := onMessages_sameSetup q batch
  have hdelivers : q.thresholds.delivers (q.tally.readyCount d) :=
    (h.isDelivered hactive).symm.trans hover
  have hstill : q.thresholds.delivers ((q.onMessages batch).tally.readyCount d) :=
    delivers_mono hdelivers (q.counts_le_onMessages d batch).2
  have hkept : r.SameSetup { r with keyChain := r.keyChain.follow batch } :=
    ⟨⟨rfl, rfl, rfl, rfl⟩, rfl⟩
  rw [outcome, if_pos hover, onMessages_of_finalized hfinal]
  refine ⟨hread.symm.trans (h.setup.trans hkept), ?_, ?_,
    fun hnot => absurd (hnot.symm.trans hover) (by decide), fun _ => h.closed hover⟩
  · rw [onMessages_keyChain, h.keyChain]
  · rw [h.tally, hread.thresholds, Tally.concluded, Tally.concluded, if_pos hdelivers,
      if_pos hstill]

-- Until then the same messages count.
theorem processBatch (h : InStep d q r) (hactive : q.isDelivered = false)
    (hundone : r.isDelivered = false) (batch : List Message) :
    (q.onMessages batch).ReadsAlike (if q.tally.Calls q.thresholds d then [d] else [])
      (r.processBatch batch) := by
  have hfew : ¬ q.thresholds.delivers (q.tally.readyCount d) := fun hdelivers => by
    rw [h.isDelivered hactive, hdelivers] at hundone
    cases hundone
  obtain ⟨hverified, hfinalized⟩ := h.reads hundone
  have hcleared : r.tally.clearSend = { q.tally with
      pendingSend := none, readySent := if q.tally.Calls q.thresholds d then [d] else [] } := by
    rw [h.tally, Tally.concluded, if_neg hfew]
    rfl
  have hbefore : q.ReadsAlike (if q.tally.Calls q.thresholds d then [d] else [])
      { r with tally := r.tally.clearSend } :=
    ⟨h.setup.trans ⟨⟨rfl, rfl, rfl, rfl⟩, rfl⟩, h.keyChain, hverified, hfinalized, none, hcleared⟩
  exact hbefore.onMessages batch

theorem outcome (h : InStep d q r) (hactive : q.isDelivered = false) (hlone : q.tally.OnlyFor d)
    {batch : List Message} (hbatch : ∀ m ∈ batch, m.blockId = d) :
    InStep d (q.onMessages batch) (r.outcome batch).2 := by
  cases hover : r.isDelivered with
  | true => exact h.outcome_of_isDelivered hactive hover hbatch
  | false =>
      rw [Replica.outcome, hover, if_neg Bool.false_ne_true]
      refine (h.processBatch hactive hover batch).endOfRound
        ((q.onMessages_isDelivered batch).trans hactive) (onMessages_onlyFor hlone hbatch) ?_
      by_cases hcalls : q.tally.Calls q.thresholds d
      · obtain ⟨hechoes, hreadies⟩ := q.counts_le_onMessages d batch
        rw [(onMessages_sameSetup q batch).thresholds]
        exact .inr ⟨if_pos hcalls, hcalls.mono hechoes hreadies⟩
      · exact .inl (if_neg hcalls)

theorem handleBatches (h : InStep d q r) (hactive : q.isDelivered = false)
    (hlone : q.tally.OnlyFor d) (hrole : r.role.participates = true) {cut : List (List Message)}
    (hcut : ∀ m ∈ cut.flatten, m.blockId = d) :
    InStep d (q.onMessages cut.flatten) (r.handleBatches cut).2 := by
  induction cut generalizing q r with
  | nil => exact h
  | cons batch rest ih =>
      rw [List.flatten_cons] at hcut ⊢
      obtain ⟨hbatch, hrest⟩ := List.forall_mem_append.mp hcut
      have hnow : InStep d (q.onMessages batch) (r.handleBatch batch).2 := by
        rw [handleBatch_snd hrole]
        exact h.outcome hactive hlone hbatch
      have hactive' := (q.onMessages_isDelivered batch).trans hactive
      have hrole' : (r.handleBatch batch).2.role.participates = true := by
        rw [hnow.setup.role, (onMessages_sameSetup q batch).role, ← h.setup.role]
        exact hrole
      have hread : q.onMessages (batch ++ rest.flatten) =
          (q.onMessages batch).onMessages rest.flatten := List.foldl_append
      rw [hread]
      exact ih hnow hactive' (onMessages_onlyFor hlone hbatch) hrole' hrest

end InStep

theorem inStep_startRun (r : Replica) (view : LedgerView) (d : Digest) :
    InStep d (r.startRun view) (r.startRun view) where
  setup := .rfl
  keyChain := rfl
  tally := by
    have hfew : ¬ r.thresholds.delivers 0 := by simp [Thresholds.delivers]
    have hquiet : ¬ Tally.start.Calls r.thresholds d := by
      simp [Tally.Calls, Tally.start, Tally.echoCount, Tally.readyCount, Thresholds.readyQuorum]
    change Tally.start = if r.thresholds.delivers 0 then _ else
      { Tally.start with
        pendingSend := none, readySent := if Tally.start.Calls r.thresholds d then [d] else [] }
    rw [if_neg hfew, if_neg hquiet]
    rfl
  reads := fun _ => ⟨rfl, rfl⟩
  closed := by simp [startRun, isDelivered, Tally.isDelivered, Tally.start]

-- Until the delivery every cut has the same messages counted, and the last round does whatever all
-- the votes call for. The delivery drops the counts of the one block there is, and no message for
-- it counts from then on, so what comes after it in one cut is dropped with the counts in another.
theorem handleBatches_of_flatten_eq (r : Replica) (view : LedgerView) {d : Digest}
    {cut cut' : List (List Message)} (hsame : cut'.flatten = cut.flatten)
    (hone : ∀ m ∈ cut.flatten, m.blockId = d) :
    let read := (r.startRun view).onMessages cut.flatten
    let once := ((r.startRun view).handleBatches cut).2
    let other := ((r.startRun view).handleBatches cut').2
    other.keyChain = once.keyChain ∧ other.tally = once.tally ∧
      (r.role.participates = true →
        once.keyChain = read.keyChain ∧ once.tally = read.tally.concluded r.thresholds d) := by
  intro read once other
  cases hrole : r.role.participates with
  | false =>
      have hcrash : (r.startRun view).role.participates = false := hrole
      have hidle : other = once := congrArg Prod.snd
        ((handleBatches_of_crash hcrash cut').trans (handleBatches_of_crash hcrash cut).symm)
      exact ⟨congrArg keyChain hidle, congrArg tally hidle, nofun⟩
  | true =>
      have hstart := inStep_startRun r view d
      have honce := hstart.handleBatches rfl (Tally.onlyFor_start d) hrole hone
      have hother := hstart.handleBatches rfl (Tally.onlyFor_start d) hrole (hsame ▸ hone)
      have hthresholds : read.thresholds = r.thresholds :=
        (onMessages_sameSetup (r.startRun view) cut.flatten).thresholds
      rw [hsame] at hother
      exact ⟨hother.keyChain.trans honce.keyChain.symm, hother.tally.trans honce.tally.symm,
        fun _ => ⟨honce.keyChain, hthresholds ▸ honce.tally⟩⟩

-- Two READYs deliver. In one cut the third comes after the delivery, in the other along with it.
def earlyCut : List (List Message) :=
  [[readyOf ⟨0⟩, readyOf ⟨1⟩], [readyOf ⟨3⟩]]

def lateCut : List (List Message) :=
  [[readyOf ⟨0⟩], [readyOf ⟨1⟩, readyOf ⟨3⟩]]

theorem handleBatches_of_flatten_eq_early :
    lateCut.flatten = earlyCut.flatten ∧
      (∀ m ∈ earlyCut.flatten, m.blockId = Block.blank.id) ∧
      (pairSeat.replica ⟨2⟩).role.participates = true ∧
      (((pairSeat.replica ⟨2⟩).startRun ⟨∅, []⟩).handleBatches earlyCut).2.tally.voted =
        some Block.blank.id ∧
      (((pairSeat.replica ⟨2⟩).startRun ⟨∅, []⟩).handleBatches lateCut).2.tally =
        (((pairSeat.replica ⟨2⟩).startRun ⟨∅, []⟩).handleBatches earlyCut).2.tally ∧
      (((pairSeat.replica ⟨2⟩).startRun ⟨∅, []⟩).handleBatches earlyCut).2.keyChain =
        (((pairSeat.replica ⟨2⟩).startRun ⟨∅, []⟩).onMessages earlyCut.flatten).keyChain := by
  have hsame : lateCut.flatten = earlyCut.flatten := rfl
  have hone : ∀ m ∈ earlyCut.flatten, m.blockId = Block.blank.id := by
    have hid : ∀ u, (readyOf u).blockId = Block.blank.id := fun _ => rfl
    simp [earlyCut, hid]
  have hrole : (pairSeat.replica ⟨2⟩).role.participates = true := rfl
  have hvoted : (((pairSeat.replica ⟨2⟩).startRun ⟨∅, []⟩).handleBatches earlyCut).2.tally.voted =
      some Block.blank.id := by decide +kernel
  obtain ⟨-, htally, hread⟩ :=
    handleBatches_of_flatten_eq (pairSeat.replica ⟨2⟩) ⟨∅, []⟩ hsame hone
  exact ⟨hsame, hone, hrole, hvoted, htally, (hread hrole).1⟩

end Replica

end QuorumLedger
