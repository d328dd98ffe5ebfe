import QuorumLedger.Proofs.Consensus.Backing

namespace QuorumLedger

-- Whether a SEND for a block is among messages.
def Announced (d : Digest) (messages : List Message) : Prop :=
  ∃ m ∈ messages, m.kind = .send ∧ m.blockId = d

theorem Announced.append {d : Digest} {messages : List Message} (h : Announced d messages)
    (later : List Message) : Announced d (messages ++ later) := by
  obtain ⟨m, hm, hsend⟩ := h
  exact ⟨m, List.mem_append_left _ hm, hsend⟩

namespace Replica

-- Every ECHO, be it sent or still due, answers a SEND that counted, and what is proposed is `only`.
structure Prompted (only : Digest) (seen : List Message) (done : List Action) (r : Replica) :
    Prop where
  pending : ∀ d, r.tally.pendingSend = some d → Announced d seen
  echo : ∀ m, .broadcast m ∈ done → m.kind = .echo → Announced m.blockId seen
  send : ∀ m, .broadcast m ∈ done → m.kind = .send → m.blockId = only

namespace Prompted

variable {only : Digest} {seen : List Message} {done : List Action} {r : Replica}

theorem start (r : Replica) (view : LedgerView) : (r.startRun view).Prompted only [] [] where
  pending := by simp [startRun, Tally.start]
  echo := by simp
  send := by simp

theorem withSigner (h : r.Prompted only seen done) (signer : Signer) :
    { r with signer }.Prompted only seen done :=
  ⟨h.pending, h.echo, h.send⟩

theorem takeDelivered (h : r.Prompted only seen done) :
    r.takeDelivered.2.Prompted only seen done :=
  ⟨h.pending, h.echo, h.send⟩

theorem following (h : r.Prompted only seen done) (m : Message) :
    (r.following m).Prompted only seen done :=
  ⟨h.pending, h.echo, h.send⟩

theorem clearSend (h : r.Prompted only seen done) :
    { r with tally := r.tally.clearSend }.Prompted only seen done :=
  ⟨by simp [Tally.clearSend], h.echo, h.send⟩

theorem withReadySent (h : r.Prompted only seen done) (readySent : List Digest) :
    { r with tally := { r.tally with readySent } }.Prompted only seen done :=
  ⟨h.pending, h.echo, h.send⟩

theorem counting (h : r.Prompted only seen done) (m : Message) (s : Seal) :
    (r.counting m s).Prompted only (seen ++ [m]) done where
  pending := by
    intro d hd
    simp only [Replica.counting, Tally.pendingSend_take] at hd
    split at hd
    · next hkind => exact ⟨m, by simp, hkind, Option.some.inj hd⟩
    · exact (h.pending d hd).append _
  echo := fun m' hm hkind => (h.echo m' hm hkind).append _
  send := h.send

-- More messages, each of them called for if it is an ECHO and the proposal if it is a SEND.
theorem broadcast (h : r.Prompted only seen done) {actions : List Action} {k : MessageKind}
    {d : Digest} (hactions : ∀ a ∈ actions, ∃ m, a = .broadcast m ∧ m.kind = k ∧ m.blockId = d)
    (hecho : k = .echo → Announced d seen) (hsend : k = .send → d = only) :
    r.Prompted only seen (done ++ actions) where
  pending := h.pending
  echo := by
    intro m hm hkind
    rcases List.mem_append.mp hm with hm | hm
    · exact h.echo m hm hkind
    · obtain ⟨m', heq, rfl, rfl⟩ := hactions _ hm
      cases heq
      exact hecho hkind
  send := by
    intro m hm hkind
    rcases List.mem_append.mp hm with hm | hm
    · exact h.send m hm hkind
    · obtain ⟨m', heq, rfl, rfl⟩ := hactions _ hm
      cases heq
      exact hsend hkind

theorem act {P : Block → Prop} (h : r.Prompted only seen done) (hstores : r.Stores P)
    {actions : List Action} {r' : Replica} (hact : Act r actions r') :
    r'.Prompted only seen (done ++ actions) := by
  cases hact with
  | @echo d active pending =>
      obtain ⟨signer, hnext⟩ := vote_snd { r with tally := r.tally.clearSend } .echo d Round.echo
      rw [hnext]
      refine (h.clearSend.withSigner signer).broadcast (k := .echo) (fun a ha => ?_)
        (fun _ => h.pending d pending) (by simp)
      obtain ⟨m, rfl, hkind, hid, -⟩ := hstores.clearSend.mem_vote ha
      exact ⟨m, rfl, hkind, hid⟩
  | @ready d round tally active mark call =>
      obtain ⟨-, rfl⟩ := Tally.markReady_eq_true mark
      obtain ⟨signer, hnext⟩ := vote_snd
        { r with tally := { r.tally with readySent := d :: r.tally.readySent } } .ready d round
      rw [hnext]
      refine ((h.withReadySent _).withSigner signer).broadcast (k := .ready) (d := d)
        (fun a ha => ?_) (by simp) (by simp)
      obtain ⟨m, rfl, hkind, hid, -⟩ := (hstores.withReadySent _).mem_vote ha
      exact ⟨m, rfl, hkind, hid⟩
  | @deliver d active declared enough =>
      exact ⟨h.pending, by simpa [Replica.deliver] using h.echo,
        by simpa [Replica.deliver] using h.send⟩

theorem outcome (h : r.Prompted only seen done) (hstores : r.Stores fun _ => True)
    (batch : List Message) :
    (r.outcome batch).2.Prompted only (seen ++ r.counted batch) (done ++ (r.outcome batch).1) :=
  (hstores.outcome_induct (I := fun seen done r => r.Prompted only seen done)
    (fun _ _ _ _ => trivial) batch seen done (fun _ _ => trivial)
    (fun _ _ _ m s h _ => h.counting m s) (fun _ _ _ m h => h.following m)
    (fun _ _ _ _ _ hstores h hact => h.act hstores hact) h fun _ => h.clearSend).2

end Prompted

end Replica

-- What an honest replica is asked to propose, if anything.
theorem Session.prompted_answer (only : Digest) {s : Session} (hgrounded : s.Grounded)
    (h : s.replica.Prompted only s.counted s.done) {c : Replica.Call} (hc : c.isStart = false)
    (hpropose : ∀ b, c = .propose b → b.id = only) :
    (s.answer c).replica.Prompted only (s.answer c).counted (s.answer c).done := by
  cases c with
  | startRun view => cases hc
  | takeDelivered =>
      rw [answer_takeDelivered]
      exact h.takeDelivered
  | propose b =>
      obtain ⟨signer, hnext⟩ := s.replica.propose_snd b
      rw [answer_propose, hnext]
      refine (h.withSigner signer).broadcast (k := .send) (fun a ha => ?_) (by simp)
        fun _ => hpropose b rfl
      obtain ⟨-, m, rfl, hm, -⟩ := Replica.mem_propose ha
      exact ⟨m, rfl, hm.kind, hm.agrees.id⟩
  | batch messages =>
      rw [answer_batch hgrounded.replica.stores.proper hgrounded.honest]
      exact h.outcome hgrounded.replica.stores messages

namespace Roster

-- Whether every message that an honest member counts was sent before by the honest member that it
-- names, or names a faulty one.
def Sincere (R : Roster) : Assembly → List (ValidatorId × Replica.Call) → Prop
  | _, [] => True
  | σ, (v, c) :: rest =>
    (v ∈ R.honest → ∀ m ∈ (σ v).replica.countedIn c, R.Vouched σ m) ∧
      R.Sincere (σ.call v c) rest

variable {R : Roster} {σ : Assembly}

theorem Sincere.not_strays {calls : List (ValidatorId × Replica.Call)} (h : R.Sincere σ calls) :
    ¬ R.Strays σ calls := by
  induction calls generalizing σ with
  | nil => exact not_false
  | cons e rest ih =>
      rintro (⟨hv, m, hm, -, hno⟩ | hlater)
      · exact hno (h.1 hv m hm)
      · exact ih h.2 hlater

theorem sincere_append {xs ys : List (ValidatorId × Replica.Call)} :
    R.Sincere σ (xs ++ ys) ↔ R.Sincere σ xs ∧ R.Sincere (σ.run xs) ys := by
  induction xs generalizing σ with
  | nil => simp [Sincere, Assembly.run]
  | cons e rest ih => simp [Sincere, ih, Assembly.run, and_assoc]

-- The same batch for several members, all of it sent before.
theorem sincere_of_vouched {batch : List Message} (hbatch : ∀ m ∈ batch, R.Vouched σ m)
    (members : List ValidatorId) : R.Sincere σ (members.map (·, .batch batch)) := by
  induction members generalizing σ with
  | nil => trivial
  | cons v rest ih =>
      refine ⟨fun _ m hm => ?_, ih fun m hm => (hbatch m hm).call v rfl⟩
      simp only [Replica.countedIn] at hm
      split at hm
      · exact hbatch m ((Replica.counted_sublist _ _).subset hm)
      · cases hm

-- What is known of the honest members if the only proposal is `only`.
structure Traced (R : Roster) (only : Digest) (σ : Assembly) : Prop where
  prompted : ∀ v ∈ R.honest, (σ v).Grounded ∧
    (σ v).replica.Prompted only (σ v).counted (σ v).done
  vouched : ∀ v ∈ R.honest, ∀ m ∈ (σ v).counted, m.signer?.isSome ∧ R.Vouched σ m

theorem traced_of_begins (h : R.Begins σ) (only : Digest) : R.Traced only σ := by
  constructor
  · intro v hv
    have hgrounded := (coherent_of_begins h).grounded v hv
    obtain ⟨s, calls, view, -, -, hs⟩ := h v hv
    refine ⟨hgrounded, ?_⟩
    rw [hs]
    exact .start _ view
  · exact fun v hv m hm => absurd hm (by simp [(h.fresh hv).1])

theorem Traced.call {only : Digest} (h : R.Traced only σ) {v : ValidatorId} {c : Replica.Call}
    (hc : c.isStart = false) (hpropose : v ∈ R.honest → ∀ b, c = .propose b → b.id = only)
    (hnew : v ∈ R.honest → ∀ m ∈ (σ v).replica.countedIn c, R.Vouched σ m) :
    R.Traced only (σ.call v c) := by
  constructor
  · refine Assembly.forall_call
      (I := fun _ s => s.Grounded ∧ s.replica.Prompted only s.counted s.done) h.prompted ?_
    intro hv
    obtain ⟨hgrounded, hprompted⟩ := h.prompted v hv
    exact ⟨hgrounded.answer hc, Session.prompted_answer only hgrounded hprompted hc (hpropose hv)⟩
  · have hcounted := forall_counted_call (v := v) hc h.vouched fun hv m hm =>
      ⟨Replica.isSome_signer_of_mem_countedIn hm, hnew hv m hm⟩
    exact fun w hw m hm => (hcounted w hw m hm).imp_right fun hm => hm.call v hc

theorem Traced.run {only : Digest} (h : R.Traced only σ)
    {calls : List (ValidatorId × Replica.Call)} (hcalls : ∀ e ∈ calls, e.2.isStart = false)
    (hpropose : ∀ v ∈ R.honest, ∀ b, (v, .propose b) ∈ calls → b.id = only)
    (hsincere : R.Sincere σ calls) : R.Traced only (σ.run calls) := by
  induction calls generalizing σ with
  | nil => exact h
  | cons e rest ih =>
      obtain ⟨he, hrest⟩ := List.forall_mem_cons.mp hcalls
      refine ih (h.call he ?_ hsincere.1) hrest (fun v hv b hb => ?_) hsincere.2
      · rintro hv b hb
        exact hpropose e.1 hv b (hb ▸ List.mem_cons_self)
      · exact hpropose v hv b (List.mem_cons_of_mem _ hb)

-- A block that an honest member sent an ECHO for was announced to it, by the proposer or by a
-- faulty member.
theorem Traced.announced {only : Digest} (h : R.Traced only σ) {v : ValidatorId}
    (hv : v ∈ R.honest) {d : Digest} (hecho : (σ v).Sent .echo d) :
    d = only ∨ ∃ m ∈ (σ v).counted, m.kind = .send ∧ m.blockId = d ∧
      ∃ w ∈ R.faulty, m.signer? = some w := by
  obtain ⟨e, he, hkind, rfl⟩ := hecho
  obtain ⟨m, hm, hsend, hid⟩ := (h.prompted v hv).2.echo e he hkind
  obtain ⟨hsigned, hvouched⟩ := h.vouched v hv m hm
  obtain ⟨w, hw⟩ := Option.isSome_iff_exists.mp hsigned
  by_cases hfaulty : w ∈ R.faulty
  · exact .inr ⟨m, hm, hsend, hid, w, hfaulty, hw⟩
  · obtain ⟨hmember, p, hp, hpkind, hpid⟩ := hvouched w hw hfaulty
    have hproposal := (h.prompted w (Finset.mem_sdiff.mpr ⟨hmember, hfaulty⟩)).2.send p hp
      (hpkind.trans hsend)
    exact .inl (hid.symm.trans (hpid.symm.trans hproposal))

-- A run in which the honest members propose one block, whatever the faulty ones do.
structure Proposes (R : Roster) (σ : Assembly) (b : Block)
    (calls : List (ValidatorId × Replica.Call)) : Prop where
  bound : 3 * R.thresholds.faulty.toNat < R.thresholds.validators.toNat
  begins : R.Begins σ
  within : ∀ e ∈ calls, e.2.isStart = false
  proposed : ∀ v ∈ R.honest, ∀ b', (v, .propose b') ∈ calls → b'.id = b.id
  sincere : R.Sincere σ calls

-- The honest members of a set that makes up a quorum of ECHOs with the faulty ones each counted a
-- SEND for a block that a faulty member had sealed.
def Pushed (R : Roster) (σ : Assembly) (d : Digest) : Prop :=
  ∃ A ⊆ R.honest, A.Nonempty ∧ R.thresholds.echoQuorum ≤ A.card + R.faulty.card ∧
    ∀ u ∈ A, ∃ m ∈ (σ u).counted, m.kind = .send ∧ m.blockId = d ∧
      ∃ w ∈ R.faulty, m.signer? = some w

-- Votes are counted without telling voters apart, so a faulty member can make up a quorum by
-- repeating its own. And a SEND is echoed whoever sealed it, so a block of a faulty member can pass
-- like the proposer's, if enough honest members get it.
theorem Proposes.eq_or_pushed_of_delivers {b : Block} {calls : List (ValidatorId × Replica.Call)}
    (h : R.Proposes σ b calls) (honce : R.CountsOnce (σ.run calls)) {v : ValidatorId}
    (hv : v ∈ R.honest) {d : Digest} (hd : (σ.run calls v).Delivers d) :
    d = b.id ∨ R.Pushed (σ.run calls) d := by
  by_cases heq : d = b.id
  · exact .inl heq
  · have hcoherent :=
      (coherent_of_begins h.begins).run h.within h.sincere.not_strays honce
    have htraced := (traced_of_begins h.begins b.id).run h.within h.proposed h.sincere
    obtain ⟨A, hA, hquorum, hsent⟩ :=
      hcoherent.quorum_of_echoed honce (hcoherent.echoed_of_delivers honce hv hd)
    have hcard := card_le_card_inter_honest_add hA
    have hbound := h.bound
    have hfaulty := R.card_faulty
    have hexact := R.thresholds.le_two_mul_echoQuorum
    refine .inr ⟨A ∩ R.honest, Finset.inter_subset_right, Finset.card_pos.mp (by omega),
      hquorum.trans hcard, fun u hu => ?_⟩
    obtain ⟨huA, hu⟩ := Finset.mem_inter.mp hu
    exact (htraced.announced hu (hsent u hu huA)).resolve_left heq

-- The fourth of the five proposes; the one in the middle is faulty.
def fiveSeat (v : ValidatorId) : Seat :=
  ⟨if v = ⟨3⟩ then .proposer else .regular, ⟨5, 1⟩, [⟨0⟩, ⟨1⟩, ⟨2⟩, ⟨3⟩, ⟨4⟩], .steady .blank⟩

-- The honest ones besides the proposer.
def others : List ValidatorId :=
  [⟨0⟩, ⟨1⟩, ⟨4⟩]

def readyVoters : List ValidatorId :=
  others ++ [⟨2⟩]

def fiveSeated : Assembly :=
  fun v => .start ((fiveSeat v).replica v) ⟨∅, []⟩

theorem isHonest_fiveSeat (v : ValidatorId) : (fiveSeat v).role.IsHonest := by
  unfold fiveSeat
  split <;> rfl

theorem begins_fiveSeated : oneOfFive.Begins fiveSeated :=
  fun v _ => ⟨fiveSeat v, [], ⟨∅, []⟩, isHonest_fiveSeat v, rfl, rfl⟩

theorem diligent_fiveSeated (v : ValidatorId) : (fiveSeated v).Diligent :=
  Session.diligent_start (isHonest_fiveSeat v) (Signer.steady_supplied _) v ⟨∅, []⟩

-- What a member makes of a SEND and of ECHOs after it, and the proposer of READYs.
def afterSend (b : Block) (v w : ValidatorId) : Session :=
  (fiveSeated v).answer (.batch [blankVote .send b w])

def afterEchoes (b : Block) (v w : ValidatorId) : Session :=
  (afterSend b v w).answer (.batch (others.map (blankVote .echo b)))

def afterReadies (b : Block) : Session :=
  ((fiveSeated ⟨3⟩).answer (.propose .blank)).answer
    (.batch (readyVoters.map (blankVote .ready b)))

section Spread

variable {b : Block} (hb : b.check ⟨∅, []⟩ = .ok ())

include hb

-- A member echoes the SEND that it gets.
theorem afterSend_spec (v w : ValidatorId) :
    (afterSend b v w).counted = [blankVote .send b w] ∧
      (afterSend b v w).replica.isDelivered = false ∧ (afterSend b v w).Sent .echo b.id := by
  have hbefore := diligent_fiveSeated v
  have hafter : (afterSend b v w).Diligent := hbefore.batch _
  have hcounted : (afterSend b v w).counted = [blankVote .send b w] :=
    (hbefore.counted_batch _).trans (counted_blankVotes hb List.not_mem_nil .send
      (List.nodup_singleton w) fun _ _ => rfl)
  have hactive := hafter.isDelivered_eq_false (by simp [hcounted, blankVote])
  obtain ⟨m, hm, hkind⟩ := hafter.exists_echo hactive
    (hcounted ▸ ⟨_, List.mem_singleton_self _, rfl⟩)
  have hprompted := Session.prompted_answer b.id hbefore.grounded (.start _ _)
    (c := .batch [blankVote .send b w]) rfl (by simp)
  obtain ⟨m', hm', -, hid⟩ := hprompted.echo m hm hkind
  change m' ∈ (afterSend b v w).counted at hm'
  rw [hcounted, List.mem_singleton] at hm'
  subst hm'
  exact ⟨hcounted, hactive, m, hm, hkind, hid.symm⟩

-- After three ECHOs it is ready.
theorem afterEchoes_spec (v : ValidatorId) {w : ValidatorId}
    (hw : w ∉ others) :
    (afterEchoes b v w).counted =
        blankVote .send b w :: others.map (blankVote .echo b) ∧
      (afterEchoes b v w).Sent .ready b.id := by
  have hfirst := diligent_fiveSeated v
  have hbefore : (afterSend b v w).Diligent := hfirst.batch _
  have hafter : (afterEchoes b v w).Diligent := hbefore.batch _
  obtain ⟨hsend, hactive, -⟩ := afterSend_spec hb v w
  have hsetup : (fiveSeated v).replica.SameSetup (afterSend b v w).replica :=
    hfirst.sameSetup_answer rfl
  have hthresholds : (afterEchoes b v w).replica.thresholds = ⟨5, 1⟩ :=
    (hsetup.trans (hbefore.sameSetup_answer rfl)).thresholds
  have hpending : b.id ∉ (afterSend b v w).replica.finalized := by
    rw [afterSend, hfirst.finalized_batch hactive]
    exact List.not_mem_nil
  have hkeys : ∀ u ∈ others,
      (afterSend b v w).replica.keyChain.recorded.get? u = none := by
    intro u hu
    have hother : (blankVote .send b w).signer? ≠ some u := by
      intro h
      obtain rfl : w = u := Option.some.inj h
      exact hw hu
    rw [afterSend, hfirst.keyChain_batch]
    exact (KeyChain.get?_checkSeal _ _ u).trans (if_neg hother)
  have hcounted : (afterEchoes b v w).counted =
      blankVote .send b w :: others.map (blankVote .echo b) := by
    rw [afterEchoes, hbefore.counted_batch, hsend,
      counted_blankVotes (hsetup.view ▸ hb) hpending .echo (by decide) hkeys]
    rfl
  have hvotes : (votesFor .echo b.id (afterEchoes b v w).counted).length = 3 := by
    rw [hcounted, ← List.singleton_append, votesFor_append, votesFor_blankVotes]
    simp [votesFor, blankVote, others]
  have hundelivered := hafter.isDelivered_eq_false (by simp [hcounted, blankVote])
  refine ⟨hcounted, hafter.sent_ready hundelivered ?_ ?_⟩
  · rw [hvotes]
    decide
  · rw [hvotes, hthresholds]
    decide

-- After four READYs the proposer delivers, whatever it proposed.
theorem afterReadies_spec :
    (afterReadies b).counted = readyVoters.map (blankVote .ready b) ∧
      (afterReadies b).Delivers b.id := by
  obtain ⟨hbefore, -⟩ := (diligent_fiveSeated ⟨3⟩).propose rfl .blank
  have hafter : (afterReadies b).Diligent := hbefore.batch _
  obtain ⟨signer, hnext⟩ := (fiveSeated ⟨3⟩).replica.propose_snd .blank
  have hsame : ((fiveSeated ⟨3⟩).answer (.propose .blank)).replica =
      { (fiveSeated ⟨3⟩).replica with signer } := hnext
  have hcounted : (afterReadies b).counted =
      readyVoters.map (blankVote .ready b) := by
    rw [afterReadies, hbefore.counted_batch, hsame,
      counted_blankVotes hb List.not_mem_nil .ready (by decide) fun _ _ => rfl]
    rfl
  have hthresholds : (afterReadies b).replica.thresholds = ⟨5, 1⟩ := by
    rw [afterReadies, (hbefore.sameSetup_answer rfl).thresholds, hsame]
    rfl
  refine ⟨hcounted, hafter.delivers ?_ ?_⟩
  · rw [hcounted, votesFor_blankVotes, hthresholds]
    rfl
  · rw [hcounted]
    exact List.forall_mem_map.mpr fun _ _ _ => rfl

end Spread

-- The proposal, whatever else follows.
def proposing : List (ValidatorId × Replica.Call) :=
  [(⟨3⟩, .propose .blank)]

-- Somebody's SEND goes to three members, then their ECHOs do.
def echoing (b : Block) (w : ValidatorId) : List (ValidatorId × Replica.Call) :=
  others.map (·, .batch [blankVote .send b w])

def readying (b : Block) : List (ValidatorId × Replica.Call) :=
  others.map (·, .batch (others.map (blankVote .echo b)))

-- The proposer gets their READYs and one of the faulty member.
def delivering (b : Block) : List (ValidatorId × Replica.Call) :=
  [⟨3⟩].map (·, .batch (readyVoters.map (blankVote .ready b)))

def spreading (b : Block) (w : ValidatorId) : List (ValidatorId × Replica.Call) :=
  proposing ++ (echoing b w ++ (readying b ++ delivering b))

theorem cases_honest : ∀ v ∈ oneOfFive.honest, v ∈ others ∨ v = ⟨3⟩ := by
  decide

theorem run_echoing (b : Block) (w : ValidatorId) :
    ∀ v ∈ others, (fiveSeated.run proposing).run (echoing b w) v = afterSend b v w := by
  simp [proposing, echoing, others, Assembly.run, Assembly.call, afterSend]

theorem run_readying (b : Block) (w : ValidatorId) :
    ∀ v ∈ others,
      ((fiveSeated.run proposing).run (echoing b w)).run (readying b) v = afterEchoes b v w := by
  simp [proposing, echoing, readying, others, Assembly.run, Assembly.call, afterSend, afterEchoes]

theorem run_spreading (b : Block) (w : ValidatorId) :
    (∀ v ∈ others, fiveSeated.run (spreading b w) v = afterEchoes b v w) ∧
      fiveSeated.run (spreading b w) ⟨3⟩ = afterReadies b := by
  constructor
  · simp [spreading, proposing, echoing, readying, delivering, others, Assembly.run,
      Assembly.call, afterSend, afterEchoes]
  · simp [spreading, proposing, echoing, readying, delivering, others, Assembly.run,
      Assembly.call, afterReadies]

theorem vouched_of_faulty {m : Message} {w : ValidatorId} (hw : m.signer? = some w)
    (hfaulty : w ∈ R.faulty) : R.Vouched σ m := by
  intro u hu hhonest
  obtain rfl : w = u := Option.some.inj (hw.symm.trans hu)
  exact absurd hfaulty hhonest

theorem vouched_blankVote {kind : MessageKind} {b : Block} {u : ValidatorId} (hu : u ∈ R.members)
    (hsent : (σ u).Sent kind b.id) : R.Vouched σ (blankVote kind b u) := by
  intro u' hu' _
  obtain rfl : u = u' := Option.some.inj hu'
  exact ⟨hu, hsent⟩

theorem sincere_proposing : oneOfFive.Sincere fiveSeated proposing :=
  ⟨fun _ _ hm => absurd hm List.not_mem_nil, trivial⟩

theorem proposes_spreading {b : Block} (hb : b.check ⟨∅, []⟩ = .ok ()) {w : ValidatorId}
    (hw : w ∉ others)
    (hsend : oneOfFive.Vouched (fiveSeated.run proposing) (blankVote .send b w)) :
    oneOfFive.Proposes fiveSeated .blank (spreading b w) := by
  have hmembers : ∀ u ∈ others, u ∈ oneOfFive.members := by decide
  have hfaulty : (⟨2⟩ : ValidatorId) ∈ oneOfFive.faulty := by decide
  have hechoes : ∀ m ∈ others.map (blankVote .echo b),
      oneOfFive.Vouched ((fiveSeated.run proposing).run (echoing b w)) m :=
    List.forall_mem_map.mpr fun u hu => vouched_blankVote (hmembers u hu)
      (run_echoing b w u hu ▸ (afterSend_spec hb u w).2.2)
  have hreadies : ∀ m ∈ readyVoters.map (blankVote .ready b),
      oneOfFive.Vouched
        (((fiveSeated.run proposing).run (echoing b w)).run (readying b)) m := by
    refine List.forall_mem_map.mpr fun u hu => ?_
    rcases List.mem_append.mp hu with hu | hu
    · exact vouched_blankVote (hmembers u hu)
        (run_readying b w u hu ▸ (afterEchoes_spec hb u hw).2)
    · obtain rfl := List.mem_singleton.mp hu
      exact vouched_of_faulty rfl hfaulty
  refine ⟨by decide, begins_fiveSeated, ?_, ?_, ?_⟩
  · simp [spreading, proposing, echoing, readying, delivering, others, Replica.Call.isStart]
  · simp [spreading, proposing, echoing, readying, delivering]
  · exact sincere_append.mpr ⟨sincere_proposing, sincere_append.mpr
      ⟨sincere_of_vouched (List.forall_mem_singleton.mpr hsend) _, sincere_append.mpr
        ⟨sincere_of_vouched hechoes _, sincere_of_vouched hreadies _⟩⟩⟩

theorem countsOnce_spreading {b : Block} (hb : b.check ⟨∅, []⟩ = .ok ()) {w : ValidatorId}
    (hw : w ∉ others) : oneOfFive.CountsOnce (fiveSeated.run (spreading b w)) := by
  intro v hv kind d hkind
  have hsub := (List.filter_sublist (p := fun m => m.kind = kind ∧ m.blockId = d)
    (l := (fiveSeated.run (spreading b w) v).counted)).filterMap Message.signer?
  refine List.Nodup.sublist hsub ?_
  rcases cases_honest v hv with hv | rfl
  · rw [(run_spreading b w).1 v hv, (afterEchoes_spec hb v hw).1]
    have hnodup : (w :: others).Nodup := List.nodup_cons.mpr ⟨hw, by decide⟩
    exact hnodup
  · rw [(run_spreading b w).2, (afterReadies_spec hb).1]
    have hnodup : readyVoters.Nodup := by decide
    exact hnodup

theorem delivers_spreading {b : Block} (hb : b.check ⟨∅, []⟩ = .ok ()) (w : ValidatorId) :
    (fiveSeated.run (spreading b w) ⟨3⟩).Delivers b.id := by
  rw [(run_spreading b w).2]
  exact (afterReadies_spec hb).2

-- Only a SEND of the faulty member would count for it.
theorem not_pushed_spreading {b : Block} (hb : b.check ⟨∅, []⟩ = .ok ()) {w : ValidatorId}
    (hw : w ∉ others) (hhonest : w ∉ oneOfFive.faulty) (d : Digest) :
    ¬ oneOfFive.Pushed (fiveSeated.run (spreading b w)) d := by
  rintro ⟨A, hA, ⟨u, hu⟩, -, hall⟩
  obtain ⟨m, hm, hkind, -, w', hfaulty, hsigner⟩ := hall u hu
  rcases cases_honest u (hA hu) with hvoter | rfl
  · rw [(run_spreading b w).1 u hvoter, (afterEchoes_spec hb u hw).1] at hm
    rcases List.mem_cons.mp hm with rfl | hm
    · obtain rfl : w = w' := Option.some.inj hsigner
      exact hhonest hfaulty
    · obtain ⟨u', -, rfl⟩ := List.mem_map.mp hm
      cases hkind
  · rw [(run_spreading b w).2, (afterReadies_spec hb).1] at hm
    obtain ⟨u', -, rfl⟩ := List.mem_map.mp hm
    cases hkind

-- The proposer's SEND is echoed, and its block is the only one delivered.
theorem eq_or_pushed_of_delivers_five :
    oneOfFive.Proposes fiveSeated .blank (spreading .blank ⟨3⟩) ∧
      oneOfFive.CountsOnce (fiveSeated.run (spreading .blank ⟨3⟩)) ∧
      (⟨3⟩ ∈ oneOfFive.honest ∧
        (fiveSeated.run (spreading .blank ⟨3⟩) ⟨3⟩).Delivers Block.blank.id) ∧
      ∀ v ∈ oneOfFive.honest, ∀ d, (fiveSeated.run (spreading .blank ⟨3⟩) v).Delivers d →
        d = Block.blank.id := by
  have hb := Block.check_blank ⟨∅, []⟩
  have hproposer : (⟨3⟩ : ValidatorId) ∈ oneOfFive.honest := by decide
  have hsend : oneOfFive.Vouched (fiveSeated.run proposing) (blankVote .send .blank ⟨3⟩) :=
    vouched_blankVote (by decide) ((diligent_fiveSeated ⟨3⟩).propose rfl .blank).2
  have hproposes := proposes_spreading hb (by decide) hsend
  have honce := countsOnce_spreading hb (w := ⟨3⟩) (by decide)
  exact ⟨hproposes, honce, ⟨hproposer, delivers_spreading hb ⟨3⟩⟩, fun v hv d hd =>
    (hproposes.eq_or_pushed_of_delivers honce hv hd).resolve_right
      (not_pushed_spreading hb (by decide) (by decide) d)⟩

-- A block that nobody is asked to propose.
def second : Block :=
  (Draft.start ⟨2⟩ Block.blank.id).finalize

-- The faulty member sends all four READYs.
def repeating : List (ValidatorId × Replica.Call) :=
  proposing ++ [⟨0⟩].map (·, .batch (.replicate 4 (blankVote .ready second ⟨2⟩)))

theorem run_repeating :
    fiveSeated.run repeating ⟨0⟩ =
      (fiveSeated ⟨0⟩).answer (.batch (.replicate 4 (blankVote .ready second ⟨2⟩))) := by
  simp [repeating, proposing, Assembly.run, Assembly.call]

theorem ready_of_mem_repeating (v : ValidatorId) :
    ∀ m ∈ (fiveSeated.run repeating v).counted, m.kind = .ready := by
  by_cases hv : v = ⟨0⟩
  · subst hv
    intro m hm
    rw [run_repeating, (diligent_fiveSeated ⟨0⟩).counted_batch] at hm
    have hm := ((fiveSeated ⟨0⟩).replica.counted_sublist _).subset hm
    rw [List.eq_of_mem_replicate hm]
    rfl
  · have hnone : (fiveSeated.run repeating v).counted = [] := by
      simp only [repeating, proposing, Assembly.run, List.map_cons, List.map_nil,
        List.cons_append, List.nil_append, List.foldl_cons, List.foldl_nil,
        Assembly.call_of_ne _ hv]
      by_cases hv' : v = ⟨3⟩
      · subst hv'
        rw [Assembly.call_self]
        rfl
      · rw [Assembly.call_of_ne _ hv']
        rfl
    simp [hnone]

theorem proposes_repeating : oneOfFive.Proposes fiveSeated .blank repeating := by
  have hfaulty : (⟨2⟩ : ValidatorId) ∈ oneOfFive.faulty := by decide
  refine ⟨by decide, begins_fiveSeated, ?_, ?_, sincere_append.mpr ⟨sincere_proposing,
    sincere_of_vouched (fun m hm => vouched_of_faulty ?_ hfaulty) _⟩⟩
  · simp [repeating, proposing, Replica.Call.isStart]
  · simp [repeating, proposing]
  · rw [List.eq_of_mem_replicate hm]
    rfl

-- One way to another block is to repeat a vote, the other to send a SEND for it.
theorem not_eq_of_repeated_or_pushed :
    (¬ ∀ (R : Roster) (σ : Assembly) (b : Block) (calls : List (ValidatorId × Replica.Call))
        (v : ValidatorId) (d : Digest), R.Proposes σ b calls →
      (∃ p ∈ R.honest, (p, .propose b) ∈ calls) → v ∈ R.honest → (σ.run calls v).Delivers d →
      ¬ R.Pushed (σ.run calls) d → d = b.id) ∧
    ¬ ∀ (R : Roster) (σ : Assembly) (b : Block) (calls : List (ValidatorId × Replica.Call))
        (v : ValidatorId) (d : Digest), R.Proposes σ b calls →
      (∃ p ∈ R.honest, (p, .propose b) ∈ calls) → v ∈ R.honest → (σ.run calls v).Delivers d →
      R.CountsOnce (σ.run calls) → d = b.id := by
  have hother : second.id ≠ Block.blank.id := by decide +kernel
  have hb : second.check ⟨∅, []⟩ = .ok () := Block.check_finalize_start ..
  have hproposer : (⟨3⟩ : ValidatorId) ∈ oneOfFive.honest := by decide
  constructor
  · intro h
    refine hother (h oneOfFive fiveSeated .blank repeating ⟨0⟩ second.id proposes_repeating
      ⟨⟨3⟩, hproposer, by simp [repeating, proposing]⟩ (by decide) ?_ ?_)
    · rw [run_repeating]
      exact (Session.delivers_replicate_blankVote (isHonest_fiveSeat ⟨0⟩)
        (Signer.steady_supplied _) ⟨0⟩ hb ⟨2⟩ (by decide)).2
    · rintro ⟨A, -, ⟨u, hu⟩, -, hall⟩
      obtain ⟨m, hm, hkind, -⟩ := hall u hu
      have hready := ready_of_mem_repeating u m hm
      rw [hkind] at hready
      cases hready
  · intro h
    have hfaulty : (⟨2⟩ : ValidatorId) ∈ oneOfFive.faulty := by decide
    exact hother (h oneOfFive fiveSeated .blank (spreading second ⟨2⟩) ⟨3⟩ second.id
      (proposes_spreading hb (by decide) (vouched_of_faulty rfl hfaulty))
      ⟨⟨3⟩, hproposer, by simp [spreading, proposing]⟩ hproposer (delivers_spreading hb ⟨2⟩)
      (countsOnce_spreading hb (by decide)))

end Roster

end QuorumLedger
