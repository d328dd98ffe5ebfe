import QuorumLedger.Proofs.Consensus.Stored

namespace QuorumLedger

-- The messages of one kind for one block.
def votesFor (kind : MessageKind) (d : Digest) (messages : List Message) : List Message :=
  messages.filter fun m => m.kind = kind ∧ m.blockId = d

theorem mem_votesFor {kind : MessageKind} {d : Digest} {messages : List Message} {m : Message} :
    m ∈ votesFor kind d messages ↔ m ∈ messages ∧ m.kind = kind ∧ m.blockId = d := by
  simp [votesFor]

theorem votesFor_append (kind : MessageKind) (d : Digest) (xs ys : List Message) :
    votesFor kind d (xs ++ ys) = votesFor kind d xs ++ votesFor kind d ys :=
  List.filter_append ..

theorem length_votesFor_snoc (kind : MessageKind) (d : Digest) (messages : List Message)
    (m : Message) :
    (votesFor kind d (messages ++ [m])).length =
      (votesFor kind d messages).length + if m.kind = kind ∧ m.blockId = d then 1 else 0 := by
  rw [votesFor_append, List.length_append]
  congr 1
  by_cases h : m.kind = kind ∧ m.blockId = d <;> simp [votesFor, h]

theorem length_votesFor_le (kind : MessageKind) (d : Digest) (xs ys : List Message) :
    (votesFor kind d xs).length ≤ (votesFor kind d (xs ++ ys)).length := by
  rw [votesFor_append, List.length_append]
  exact Nat.le_add_right _ _

-- The validators in whose names votes for a block came.
def voters (kind : MessageKind) (d : Digest) (messages : List Message) : List ValidatorId :=
  (votesFor kind d messages).filterMap Message.signer?

theorem mem_voters {kind : MessageKind} {d : Digest} {messages : List Message} {u : ValidatorId} :
    u ∈ voters kind d messages ↔
      ∃ m ∈ messages, m.kind = kind ∧ m.blockId = d ∧ m.signer? = some u := by
  simp [voters, mem_votesFor, and_assoc]

theorem count_voters (kind : MessageKind) (d : Digest) (messages : List Message)
    (u : ValidatorId) :
    (voters kind d messages).count u =
      (messages.filter fun m => m.signer? = some u).countP
        fun m => m.kind = kind ∧ m.blockId = d := by
  rw [voters, votesFor, List.count_filterMap, List.countP_filter, List.countP_filter]
  refine List.countP_congr fun m _ => ?_
  simp [and_comm]

theorem length_voters {kind : MessageKind} {d : Digest} {messages : List Message}
    (h : ∀ m ∈ messages, m.signer?.isSome) :
    (voters kind d messages).length = (votesFor kind d messages).length := by
  rw [voters, List.length_filterMap_eq_countP, List.countP_eq_length]
  exact fun m hm => h m (mem_votesFor.mp hm).1

namespace Replica

-- Counts are those of the messages counted, READYs were called for, and deliveries had the votes.
structure Grounded (seen : List Message) (done : List Action) (r : Replica) : Prop where
  stores : r.Stores fun _ => True
  tallied : r.isDelivered = false → ∀ d,
    r.tally.echoCount d = (votesFor .echo d seen).length ∧
      r.tally.readyCount d = (votesFor .ready d seen).length
  ready : ∀ m, .broadcast m ∈ done → m.kind = .ready →
    r.thresholds.echoQuorum ≤ (votesFor .echo m.blockId seen).length ∨
      r.thresholds.readyQuorum ≤ (votesFor .ready m.blockId seen).length
  delivered : ∀ d height, .delivered d height ∈ done →
    r.thresholds.delivers (votesFor .ready d seen).length

theorem delivers_mono {t : Thresholds} {a b : Nat} (h : t.delivers a) (hab : a ≤ b) :
    t.delivers b := by
  have hover : t.deliveryThreshold < a := of_decide_eq_true h
  exact decide_eq_true (Nat.lt_of_lt_of_le hover hab)

namespace Grounded

variable {seen : List Message} {done : List Action} {r : Replica}

theorem start (h : r.Stores fun _ => True) (view : LedgerView) :
    (r.startRun view).Grounded [] [] where
  stores := h.startRun view
  tallied := fun _ _ => ⟨rfl, rfl⟩
  ready := by simp
  delivered := by simp

theorem following (h : r.Grounded seen done) (m : Message) : (r.following m).Grounded seen done :=
  ⟨h.stores.following m, h.tallied, h.ready, h.delivered⟩

theorem clearSend (h : r.Grounded seen done) :
    { r with tally := r.tally.clearSend }.Grounded seen done :=
  ⟨h.stores.clearSend, h.tallied, h.ready, h.delivered⟩

theorem withSigner (h : r.Grounded seen done) (signer : Signer) :
    { r with signer }.Grounded seen done :=
  ⟨h.stores.withSigner signer, h.tallied, h.ready, h.delivered⟩

theorem takeDelivered (h : r.Grounded seen done) : r.takeDelivered.2.Grounded seen done :=
  ⟨h.stores.takeDelivered, h.tallied, h.ready, h.delivered⟩

theorem counting (h : r.Grounded seen done) (m : Message) (s : Seal) :
    (r.counting m s).Grounded (seen ++ [m]) done where
  stores := h.stores.counting (fun _ _ _ _ => trivial) trivial
  tallied := by
    intro hactive d
    have hactive' : r.isDelivered = false := by
      simpa [Replica.counting, Replica.isDelivered] using hactive
    obtain ⟨hechoes, hreadies⟩ := h.tallied hactive' d
    simp only [length_votesFor_snoc, ← hechoes, ← hreadies]
    exact ⟨Tally.echoCount_take .., Tally.readyCount_take ..⟩
  ready := fun m' hm hkind => (h.ready m' hm hkind).imp
    (fun hle => Nat.le_trans hle (length_votesFor_le ..))
    fun hle => Nat.le_trans hle (length_votesFor_le ..)
  delivered := fun d height hd => delivers_mono (h.delivered d height hd) (length_votesFor_le ..)

-- More actions, none of them a READY or a delivery, rest on nothing.
theorem silent (h : r.Grounded seen done) {actions : List Action}
    (hactions : ∀ a ∈ actions, ∃ m, a = .broadcast m ∧ m.kind ≠ .ready) :
    r.Grounded seen (done ++ actions) where
  stores := h.stores
  tallied := h.tallied
  ready := by
    intro m hm hkind
    rcases List.mem_append.mp hm with hm | hm
    · exact h.ready m hm hkind
    · obtain ⟨m', heq, hne⟩ := hactions _ hm
      cases heq
      exact absurd hkind hne
  delivered := by
    intro d height hd
    rcases List.mem_append.mp hd with hd | hd
    · exact h.delivered d height hd
    · obtain ⟨m', heq, -⟩ := hactions _ hd
      cases heq

theorem act (h : r.Grounded seen done) {actions : List Action} {r' : Replica}
    (hact : Act r actions r') : r'.Grounded seen (done ++ actions) := by
  cases hact with
  | @echo d active pending =>
      obtain ⟨signer, hnext⟩ := vote_snd { r with tally := r.tally.clearSend } .echo d Round.echo
      rw [hnext]
      refine (h.clearSend.withSigner signer).silent fun a ha => ?_
      obtain ⟨m, rfl, hkind, -⟩ := h.stores.clearSend.mem_vote ha
      exact ⟨m, rfl, by simp [hkind]⟩
  | @ready d round tally active mark call =>
      obtain ⟨-, rfl⟩ := Tally.markReady_eq_true mark
      obtain ⟨hechoes, hreadies⟩ := h.tallied active d
      obtain ⟨signer, hnext⟩ := vote_snd
        { r with tally := { r.tally with readySent := d :: r.tally.readySent } } .ready d round
      rw [hnext]
      refine ⟨(h.stores.withReadySent _).withSigner signer, h.tallied, ?_, ?_⟩
      · intro m hm hkind
        rcases List.mem_append.mp hm with hm | hm
        · exact h.ready m hm hkind
        · obtain ⟨m', heq, -, rfl, -⟩ := (h.stores.withReadySent _).mem_vote hm
          cases heq
          exact call.imp (fun hc => hechoes ▸ hc.2.2) (fun hc => hreadies ▸ hc.2)
      · intro d' height hd
        rcases List.mem_append.mp hd with hd | hd
        · exact h.delivered d' height hd
        · obtain ⟨m', heq, -⟩ := (h.stores.withReadySent _).mem_vote hd
          cases heq
  | @deliver d active declared enough =>
      have hcount := (h.tallied active d).2
      have hpos := pos_of_readyQuorum_le (readyQuorum_le_of_delivers enough)
      refine ⟨(h.stores.deliver (h.stores.readies d hpos)).1, ?_, ?_, ?_⟩
      · intro hactive
        simp [Replica.deliver, Replica.isDelivered, Tally.isDelivered, Tally.deliver] at hactive
      · intro m hm hkind
        rcases List.mem_append.mp hm with hm | hm
        · exact h.ready m hm hkind
        · cases List.mem_singleton.mp hm
      · intro d' height hd
        rcases List.mem_append.mp hd with hd | hd
        · exact h.delivered d' height hd
        · cases List.mem_singleton.mp hd
          exact hcount ▸ enough

theorem outcome (h : r.Grounded seen done) (batch : List Message) :
    (r.outcome batch).2.Grounded (seen ++ r.counted batch) (done ++ (r.outcome batch).1) :=
  outcome_induct (I := fun seen done r => r.Grounded seen done) batch seen done
    (fun _ _ _ m s _ h _ => h.counting m s) (fun _ _ _ m h => h.following m)
    (fun _ _ _ _ _ h hact => h.act hact) h.stores.proper h fun _ => h.clearSend

-- Votes enough to deliver do deliver, once the round is over.
theorem isDelivered_of_votes (h : r.Grounded seen done)
    (hsettled : r.isDelivered = false → r.Settled) {d : Digest}
    (henough : r.thresholds.delivers (votesFor .ready d seen).length) : r.isDelivered = true := by
  by_contra hnot
  have hactive := Bool.eq_false_iff.mpr hnot
  rw [← (h.tallied hactive d).2] at henough
  exact (hsettled hactive).undelivered d henough

end Grounded

end Replica

-- A replica, the messages that it counted in the present run and what it did there.
structure Session where
  replica : Replica
  counted : List Message
  done : List Action

namespace Session

def start (r : Replica) (view : LedgerView) : Session :=
  ⟨r.startRun view, [], []⟩

def answer (s : Session) : Replica.Call → Session
  | .startRun view => .start s.replica view
  | c => ⟨(s.replica.answer c).2, s.counted ++ s.replica.countedIn c,
      s.done ++ (s.replica.answer c).1⟩

theorem answer_eq (s : Session) {c : Replica.Call} (hc : c.isStart = false) :
    s.answer c = ⟨(s.replica.answer c).2, s.counted ++ s.replica.countedIn c,
      s.done ++ (s.replica.answer c).1⟩ := by
  cases c with
  | startRun view => cases hc
  | propose b => rfl
  | batch messages => rfl
  | takeDelivered => rfl

theorem answer_takeDelivered (s : Session) :
    s.answer .takeDelivered = ⟨s.replica.takeDelivered.2, s.counted, s.done⟩ := by
  simp [answer, Replica.answer, Replica.countedIn]

theorem answer_propose (s : Session) (b : Block) :
    s.answer (.propose b) = ⟨(s.replica.answer (.propose b)).2, s.counted,
      s.done ++ (s.replica.answer (.propose b)).1⟩ := by
  simp [answer, Replica.countedIn]

-- Whether a vote was sent to all.
def Sent (s : Session) (kind : MessageKind) (d : Digest) : Prop :=
  ∃ m, .broadcast m ∈ s.done ∧ m.kind = kind ∧ m.blockId = d

def Delivers (s : Session) (d : Digest) : Prop :=
  ∃ height, .delivered d height ∈ s.done

-- What was counted and done before still was.
structure Extends (s s' : Session) : Prop where
  counted : s.counted <+: s'.counted
  done : s.done <+: s'.done

theorem Extends.rfl {s : Session} : s.Extends s :=
  ⟨List.prefix_rfl, List.prefix_rfl⟩

theorem Extends.trans {s s' s'' : Session} (h : s.Extends s') (h' : s'.Extends s'') :
    s.Extends s'' :=
  ⟨h.counted.trans h'.counted, h.done.trans h'.done⟩

theorem Extends.sent {s s' : Session} (h : s.Extends s') {kind : MessageKind} {d : Digest}
    (hs : s.Sent kind d) : s'.Sent kind d := by
  obtain ⟨m, hm, hkind, hd⟩ := hs
  exact ⟨m, h.done.subset hm, hkind, hd⟩

theorem extends_answer (s : Session) {c : Replica.Call} (hc : c.isStart = false) :
    s.Extends (s.answer c) := by
  rw [s.answer_eq hc]
  exact ⟨List.prefix_append _ _, List.prefix_append _ _⟩

theorem answer_batch_of_crash {s : Session} (h : s.replica.role.participates = false)
    (batch : List Message) : s.answer (.batch batch) = s := by
  simp [answer, Replica.countedIn, Replica.answer, Replica.handleBatch_of_crash h, h]

theorem answer_batch_of_participates {s : Session} (hproper : s.replica.tally.Proper)
    (h : s.replica.role.participates = true) (batch : List Message) :
    s.answer (.batch batch) = ⟨(s.replica.outcome batch).2, s.counted ++ s.replica.counted batch,
      s.done ++ s.replica.role.shape s.replica.id s.replica.committee
        (s.replica.outcome batch).1⟩ := by
  simp only [answer, Replica.countedIn, Replica.answer, h, if_true,
    Replica.handleBatch_of_participates hproper h]

theorem answer_batch {s : Session} (hproper : s.replica.tally.Proper)
    (hhonest : s.replica.role.IsHonest) (batch : List Message) :
    s.answer (.batch batch) = ⟨(s.replica.outcome batch).2, s.counted ++ s.replica.counted batch,
      s.done ++ (s.replica.outcome batch).1⟩ := by
  rw [answer_batch_of_participates hproper hhonest.participates, hhonest.shape]

structure Grounded (s : Session) : Prop where
  replica : s.replica.Grounded s.counted s.done
  honest : s.replica.role.IsHonest

theorem Grounded.answer {s : Session} (h : s.Grounded) {c : Replica.Call} (hc : c.isStart = false) :
    (s.answer c).Grounded := by
  have hsame := Replica.answer_sameSetup h.replica.stores.proper hc
  refine ⟨?_, ?_⟩
  · cases c with
    | startRun view => cases hc
    | takeDelivered =>
        rw [answer_takeDelivered]
        exact h.replica.takeDelivered
    | propose b =>
        obtain ⟨signer, hnext⟩ := s.replica.propose_snd b
        rw [answer_propose, hnext]
        refine (h.replica.withSigner signer).silent fun a ha => ?_
        obtain ⟨-, m, rfl, hm, -⟩ := Replica.mem_propose ha
        exact ⟨m, rfl, by simp [hm.kind]⟩
    | batch messages =>
        rw [answer_batch h.replica.stores.proper h.honest]
        exact h.replica.outcome messages
  · rw [s.answer_eq hc]
    exact hsame.role ▸ h.honest

namespace Extends

variable {s s' : Session} (h : s.Extends s') (kind : MessageKind) (d : Digest)

include h

theorem length_votesFor :
    (votesFor kind d s.counted).length ≤ (votesFor kind d s'.counted).length :=
  ((h.counted.sublist).filter _).length_le

theorem voters :
    (QuorumLedger.voters kind d s.counted).Sublist (QuorumLedger.voters kind d s'.counted) :=
  ((h.counted.sublist).filter _).filterMap _

end Extends

end Session

-- The sessions of all validators.
abbrev Assembly := ValidatorId → Session

namespace Assembly

def call (σ : Assembly) (v : ValidatorId) (c : Replica.Call) : Assembly :=
  Function.update σ v ((σ v).answer c)

def run (σ : Assembly) (calls : List (ValidatorId × Replica.Call)) : Assembly :=
  calls.foldl (fun σ e => σ.call e.1 e.2) σ

theorem call_self (σ : Assembly) (v : ValidatorId) (c : Replica.Call) :
    σ.call v c v = (σ v).answer c :=
  Function.update_self ..

theorem call_of_ne (σ : Assembly) {v w : ValidatorId} (h : w ≠ v) (c : Replica.Call) :
    σ.call v c w = σ w :=
  Function.update_of_ne h ..

-- What holds of sessions is kept by a call if the session that is called keeps it.
theorem forall_call {σ : Assembly} {v : ValidatorId} {c : Replica.Call} {p : ValidatorId → Prop}
    {I : ValidatorId → Session → Prop} (h : ∀ w, p w → I w (σ w))
    (hcall : p v → I v ((σ v).answer c)) : ∀ w, p w → I w (σ.call v c w) := by
  intro w hw
  by_cases hwv : w = v
  · subst hwv
    rw [call_self]
    exact hcall hw
  · rw [σ.call_of_ne hwv]
    exact h w hw

theorem extends_call (σ : Assembly) (v : ValidatorId) {c : Replica.Call} (hc : c.isStart = false)
    (w : ValidatorId) : (σ w).Extends (σ.call v c w) := by
  by_cases hw : w = v
  · subst hw
    rw [call_self]
    exact (σ w).extends_answer hc
  · rw [σ.call_of_ne hw]
    exact .rfl

theorem extends_run (σ : Assembly) {calls : List (ValidatorId × Replica.Call)}
    (hcalls : ∀ e ∈ calls, e.2.isStart = false) (w : ValidatorId) :
    (σ w).Extends (σ.run calls w) := by
  induction calls generalizing σ with
  | nil => exact .rfl
  | cons e rest ih =>
      obtain ⟨he, hrest⟩ := List.forall_mem_cons.mp hcalls
      exact (σ.extends_call e.1 he w).trans (ih (σ.call e.1 e.2) hrest)

end Assembly

end QuorumLedger
