import QuorumLedger.Proofs.Cluster.Chronicle
import QuorumLedger.Proofs.Settings.Acceptance

namespace QuorumLedger

namespace Replica

-- Whether a replica delivered last what it voted for, if it voted.
def LastVoted (r : Replica) : Prop :=
  ∀ d, r.tally.voted = some d → r.delivered.getLast? = some d

theorem lastVoted_startRun (r : Replica) (view : LedgerView) : (r.startRun view).LastVoted := by
  simp [LastVoted, startRun, Tally.start]

namespace LastVoted

variable {r r' : Replica}

theorem act (h : r.LastVoted) {actions : List Action} (hact : Act r actions r') : r'.LastVoted := by
  cases hact with
  | @echo d active pending =>
      obtain ⟨signer, hnext⟩ := vote_snd { r with tally := r.tally.clearSend } .echo d Round.echo
      rw [hnext]
      exact h
  | @ready d round tally active mark call =>
      obtain ⟨-, rfl⟩ := Tally.markReady_eq_true mark
      obtain ⟨signer, hnext⟩ := vote_snd
        { r with tally := { r.tally with readySent := d :: r.tally.readySent } } .ready d round
      rw [hnext]
      exact h
  | @deliver d active declared enough =>
      intro d' hd'
      have hsame : d = d' := Option.some.inj hd'
      simp [Replica.deliver, hsame]

theorem outcome (h : r.LastVoted) (hproper : r.tally.Proper) (batch : List Message) :
    (r.outcome batch).2.LastVoted :=
  outcome_induct (I := fun _ _ r => r.LastVoted) batch [] []
    (fun _ _ _ m s _ h _ d hd => h d (by simpa [counting] using hd)) (fun _ _ _ _ h => h)
    (fun _ _ _ _ _ h hact => h.act hact) hproper h fun _ => h

theorem answer_batch (h : r.LastVoted) (hproper : r.tally.Proper) (batch : List Message) :
    (r.answer (.batch batch)).2.LastVoted := by
  rw [Replica.answer_batch hproper]
  split
  · exact h.outcome hproper batch
  · exact h

-- The block of the last vote is the last of the blocks that are handed over.
theorem exists_getLast? {P : Block → Prop} (h : r.LastVoted) (hstores : r.Stores P) {d : Digest}
    (hd : r.tally.voted = some d) : ∃ b, r.deliveredBlocks.getLast? = some b ∧ b.id = d ∧ P b := by
  obtain ⟨earlier, hsplit⟩ := List.getLast?_eq_some_iff.mp (h d hd)
  have hmem : d ∈ r.delivered := hsplit ▸ List.mem_append_right _ List.mem_cons_self
  obtain ⟨b, hb⟩ := Option.isSome_iff_exists.mp (hstores.delivered d hmem)
  obtain ⟨hid, hP⟩ := hstores.blocks d b hb
  refine ⟨b, ?_, hid, hP⟩
  simp [deliveredBlocks, hsplit, hb]

end LastVoted

end Replica

namespace Stage

def block? : Stage → Option Block
  | .idle => none
  | .opening b _ => some b
  | .waiting b => some b

-- Whether a validator has begun the run of the block.
def Begun : Stage → ValidatorId → Prop
  | .idle, _ => False
  | .opening _ left, v => v ∉ left
  | .waiting _, _ => True

end Stage

-- A replica in its seat that, in a run that it has begun, delivered last what it voted for.
structure Replica.Serves (s : Settings) (stage : Stage) (r : Replica) : Prop where
  role : r.role = s.roleOf r.id
  last : stage.Begun r.id → r.LastVoted

namespace Replica.Serves

variable {s : Settings} {stage : Stage} {r : Replica}

theorem answer_batch (h : r.Serves s stage) (hproper : r.tally.Proper) (batch : List Message) :
    (r.answer (.batch batch)).2.Serves s stage := by
  have hseat := answer_sameSeat hproper (.batch batch)
  exact ⟨by rw [hseat.role, hseat.id, h.role], fun hbegun =>
    (h.last (hseat.id ▸ hbegun)).answer_batch hproper batch⟩

theorem answer_propose (h : r.Serves s stage) (b : Block) :
    (r.answer (.propose b)).2.Serves s stage := by
  obtain ⟨signer, hnext⟩ := r.propose_snd b
  rw [hnext]
  exact ⟨h.role, h.last⟩

theorem startRun (h : r.Serves s stage) (view : LedgerView) (stage' : Stage) :
    (r.startRun view).Serves s stage' :=
  ⟨h.role, fun _ => r.lastVoted_startRun view⟩

theorem idle (h : r.Serves s stage) : r.Serves s .idle :=
  ⟨h.role, False.elim⟩

end Replica.Serves

namespace Committee

variable {σ : Type}

theorem forall_put {I : Replica → Prop} {rs : List Replica} (h : ∀ r ∈ rs, I r) {r : Replica}
    (hr : I r) : ∀ r' ∈ put r rs, I r' :=
  fun r' hr' => (mem_put hr').elim (fun he => he ▸ hr) (h r')

theorem exists_find? {c : Committee σ} {v : ValidatorId} (h : v ∈ c.members) :
    ∃ r, c.find? v = some r := by
  obtain ⟨r, hr, hid⟩ := List.mem_map.mp h
  refine Option.isSome_iff_exists.mp (List.find?_isSome.mpr ⟨r, hr, ?_⟩)
  exact decide_eq_true hid

variable [WordSource σ] {s : Settings} {stage : Stage} {P : Block → Prop} {c c' : Committee σ}

theorem serves_moved (h : ∀ r ∈ c.replicas, r.Serves s stage) (hsourced : c.Sourced P)
    (hmoved : c.Moved c') : ∀ r ∈ c'.replicas, r.Serves s stage := by
  cases hmoved with
  | stay => exact h
  | tick => exact h
  | send v => exact c.replicas_send v ▸ h
  | @handle v r batch network wake found drained =>
      have hr := (mem_of_find? found).1
      exact forall_put h ((h r hr).answer_batch (hsourced.replicas r hr).proper batch)

theorem serves_propose (h : ∀ r ∈ c.replicas, r.Serves s stage) (v : ValidatorId) (b : Block) :
    ∀ r ∈ (c.propose v b).2.replicas, r.Serves s stage := by
  rcases c.propose_cases v b with hsame | ⟨r, network, hr, -, hnext⟩
  · rw [hsame, replicas_send]
    exact h
  · rw [hnext]
    exact forall_put h ((h r (mem_of_find? hr).1).answer_propose b)

end Committee

-- New replicas, one for each number.
theorem Committee.replicasFrom_eq_ok {s : Settings} {sources : Nat → KeySource} {i : Nat}
    {ids : List ValidatorId} {rs : List Replica} (h : replicasFrom s sources i ids = .ok rs) :
    rs.map (·.id) = ids ∧ ∀ r ∈ rs, ∃ signer,
      r = Replica.create r.id (s.roleOf r.id) s.thresholds s.committee signer := by
  induction ids generalizing i rs with
  | nil =>
      obtain rfl : [] = rs := Except.ok.inj h
      exact ⟨rfl, by simp⟩
  | cons id rest ih =>
      unfold replicasFrom at h
      cases hr : s.replica id (sources i) with
      | error e => simp [hr, bind, Except.bind] at h
      | ok r =>
          cases hrest : replicasFrom s sources (i + 1) rest with
          | error e => simp [hr, hrest, bind, Except.bind] at h
          | ok later =>
              obtain rfl : r :: later = rs := by
                simpa [hr, hrest, bind, Except.bind, pure, Except.pure] using h
              obtain ⟨hids, hlater⟩ := ih hrest
              obtain ⟨signer, hnew⟩ : ∃ signer,
                  r = Replica.create id (s.roleOf id) s.thresholds s.committee signer := by
                unfold Settings.replica at hr
                split at hr
                · cases hr
                · split at hr
                  · cases hr
                  · rename_i signer _
                    exact ⟨signer, (Except.ok.inj hr).symm⟩
              have hid : r.id = id := by rw [hnew, Replica.create]
              refine ⟨by rw [List.map_cons, hids, hid], ?_⟩
              exact List.forall_mem_cons.mpr ⟨⟨signer, hid ▸ hnew⟩, hlater⟩

namespace Cluster

-- All that a cluster starts with.
theorem start_eq_ok {s : Settings} {config : NetworkConfig} {sources : Nat → KeySource}
    {first : Cluster ChaCha} (h : start s config sources = .ok first) :
    s.validate = .ok () ∧ ∃ rs : List Replica, rs.map (·.id) = s.committee ∧
      (∀ r ∈ rs, ∃ signer,
        r = Replica.create r.id (s.roleOf r.id) s.thresholds s.committee signer) ∧
      first = ⟨s, ⟨.create config s.committee s.leader, rs, ∅, s.faultDelayMillis.toNat, 0⟩,
        (Pool.create s.pool s.wallets).initializeCoins s.initialCoins, ⟨1⟩, Bytes32.zero⟩ := by
  unfold start at h
  split at h
  · cases h
  · rename_i hvalid
    refine ⟨hvalid, ?_⟩
    unfold Committee.start at h
    cases hrs : Committee.replicasFrom s sources 0 s.committee with
    | error e => simp [hrs, bind, Except.bind] at h
    | ok rs =>
        obtain ⟨hids, hnew⟩ := Committee.replicasFrom_eq_ok hrs
        refine ⟨rs, hids, hnew, ?_⟩
        simpa [hrs, bind, Except.bind, pure, Except.pure, eq_comm] using h

variable {σ : Type} {c c' : Cluster σ} {b : Block} {votes : List (ValidatorId × Option Digest)}

-- The block that a round which succeeds applies.
def handedOver (c : Cluster σ) (b : Block) : Block :=
  (((c.committee.find? c.settings.leader).map Replica.deliveredBlocks).getD []).getLast?.getD b

-- All that the end of a successful round does.
theorem conclude_eq_ok {o : RoundOutcome} (h : c.conclude b votes = (.ok o, c')) :
    ∃ height, c.height.next = .ok height ∧ o = ⟨c.handedOver b, votes⟩ ∧ c' = { c with
      committee := c.committee.takeDelivered
      pool := (c.pool.applyBlock (c.handedOver b)).2
      height
      parent := b.id } := by
  unfold conclude at h
  cases hnext : c.height.next with
  | error e => simp [hnext] at h
  | ok height =>
      simp only [hnext, Prod.mk.injEq, Except.ok.injEq] at h
      exact ⟨height, rfl, h.1.symm, h.2.symm⟩

theorem voted_of_outcome (h : c.outcome b = .ok votes) {r : Replica} (hr : r ∈ c.committee.replicas)
    (hhonest : isHonest r = true) : r.tally.voted = some b.id := by
  unfold outcome at h
  simp only at h
  split at h
  · cases h
  · split at h
    · cases h
    · rename_i hsame
      simp only [List.any_eq_true, not_exists, not_and, Bool.not_eq_true] at hsame
      simpa using hsame r (List.mem_filter.mpr ⟨hr, hhonest⟩)

end Cluster

namespace Chronicle

variable {σ : Type}

-- Whether some block that was chosen says what a block says.
def Proposed (x : Chronicle σ) (b : Block) : Prop :=
  ∃ b' ∈ x.proposed, b.Agrees b'

theorem proposed_of_agrees {x : Chronicle σ} (a b : Block) (h : a.Agrees b) (hb : x.Proposed b) :
    x.Proposed a := by
  obtain ⟨b', hb', hagrees⟩ := hb
  exact ⟨b', hb', h.trans hagrees⟩

-- Everybody is in place, and all blocks that are about were chosen.
structure Manned (x : Chronicle σ) : Prop where
  leader : x.cluster.settings.leader ∈ x.cluster.committee.members
  serves : ∀ r ∈ x.cluster.committee.replicas, r.Serves x.cluster.settings x.stage
  sourced : x.cluster.committee.Sourced x.Proposed
  sent : ∀ m ∈ x.sent, x.Proposed m.block
  chosen : ∀ b, x.stage.block? = some b → b ∈ x.proposed

namespace Manned

variable {x : Chronicle σ} (h : x.Manned)

include h

theorem sent_goOn {committee : Committee σ} (hsourced : committee.Sourced x.Proposed) :
    ∀ m ∈ (x.goOn committee).sent, x.Proposed m.block := by
  intro m hm
  rcases List.mem_append.mp hm with hold | hnew
  · exact h.sent m hold
  · exact hsourced.held hnew

theorem goOn {committee : Committee σ}
    (hmembers : committee.members = x.cluster.committee.members)
    (hserves : ∀ r ∈ committee.replicas, r.Serves x.cluster.settings x.stage)
    (hsourced : committee.Sourced x.Proposed) : (x.goOn committee).Manned :=
  ⟨hmembers ▸ h.leader, hserves, hsourced, h.sent_goOn hsourced, h.chosen⟩

theorem idle : { x with stage := .idle }.Manned :=
  ⟨h.leader, fun r hr => (h.serves r hr).idle, h.sourced, h.sent, by simp [Stage.block?]⟩

theorem choose : x.choose.Manned := by
  have hgrow : ∀ b, x.Proposed b → x.choose.Proposed b := by
    rintro b ⟨b', hb', hagrees⟩
    exact ⟨b', List.mem_append_left _ hb', hagrees⟩
  refine ⟨h.leader, fun r hr => ⟨(h.serves r hr).role, fun hbegun => ?_⟩, h.sourced.mono hgrow,
    fun m hm => hgrow _ (h.sent m hm), ?_⟩
  · exact absurd (List.mem_map_of_mem hr) hbegun
  · rintro b hb
    exact List.mem_append_right _ (List.mem_singleton.mpr (Option.some.inj hb).symm)

theorem startRunOf {b : Block} {v : ValidatorId} {left : List ValidatorId}
    (hstage : x.stage = .opening b (v :: left)) (view : LedgerView) :
    { x.goOn (x.cluster.committee.startRunOf v view) with stage := .opening b left }.Manned := by
  have hsourced : (x.cluster.committee.startRunOf v view).Sourced x.Proposed := by
    refine ⟨h.sourced.network, h.sourced.outbox, List.forall_mem_map.mpr fun r hr => ?_⟩
    split
    · exact (h.sourced.replicas r hr).startRun view
    · exact h.sourced.replicas r hr
  have hchosen : b ∈ x.proposed := h.chosen b (by rw [hstage]; rfl)
  refine ⟨x.cluster.committee.members_startRunOf v view ▸ h.leader,
    List.forall_mem_map.mpr fun r hr => ?_, hsourced, h.sent_goOn hsourced,
    fun b' hb' => Option.some.inj hb' ▸ hchosen⟩
  have hserves := h.serves r hr
  rw [hstage] at hserves
  split
  · exact hserves.startRun view _
  · rename_i hother
    exact ⟨hserves.role, fun hbegun => hserves.last fun hmem =>
      (List.mem_cons.mp hmem).elim hother hbegun⟩

theorem rewire {n : Network σ}
    (hcarried : ∀ e ∈ n.inboxes.entries, ∀ m ∈ e.2.messages, m ∈ x.sent) :
    (x.goOn { x.cluster.committee with network := n }).Manned :=
  h.goOn rfl h.serves
    ⟨fun e he m hm => h.sent m (hcarried e he m hm), h.sourced.outbox, h.sourced.replicas⟩

-- Every honest validator voted for the block, so the leader did, in the run that it has begun.
theorem exists_handedOver {b : Block} {votes : List (ValidatorId × Option Digest)}
    (hstage : x.stage = .waiting b) (hagrees : x.cluster.outcome b = .ok votes) :
    ∃ b', x.cluster.handedOver b = b' ∧ b'.id = b.id ∧ x.Proposed b' := by
  obtain ⟨r, hr⟩ := Committee.exists_find? h.leader
  obtain ⟨hmem, hid⟩ := Committee.mem_of_find? hr
  have hserves := h.serves r hmem
  rw [hstage] at hserves
  have hhonest : Cluster.isHonest r = true := by
    simp only [Cluster.isHonest, hserves.role, hid, Settings.roleOf, if_true]
    rfl
  have hvoted := Cluster.voted_of_outcome hagrees hmem hhonest
  obtain ⟨b', hlast, hsame, hproposed⟩ :=
    (hserves.last trivial).exists_getLast? (h.sourced.replicas r hmem) hvoted
  refine ⟨b', ?_, hsame, hproposed⟩
  simp only [Cluster.handedOver, hr, Option.map_some, Option.getD_some, hlast]

theorem succeed {b : Block} {votes : List (ValidatorId × Option Digest)} {o : RoundOutcome}
    {c : Cluster σ} (hconcludes : x.cluster.conclude b votes = (.ok o, c))
    (successes : List Success) : { x with cluster := c, stage := .idle, successes }.Manned := by
  obtain ⟨height, -, -, rfl⟩ := Cluster.conclude_eq_ok hconcludes
  exact ⟨x.cluster.committee.members_takeDelivered ▸ h.leader,
    List.forall_mem_map.mpr fun r hr => ⟨(h.serves r hr).role, False.elim⟩,
    h.sourced.takeDelivered, h.sent, by simp [Stage.block?]⟩

variable [WordSource σ]

theorem propose {b : Block} (hstage : x.stage = .opening b []) (v : ValidatorId) :
    { x.goOn (x.cluster.committee.propose v b).2 with
      stage := .waiting b
      sent := x.sent ++ x.cluster.committee.proposal v b }.Manned := by
  have hchosen : b ∈ x.proposed := h.chosen b (by rw [hstage]; rfl)
  have hproposed : x.Proposed b := ⟨b, hchosen, .rfl⟩
  have hserves : ∀ r ∈ x.cluster.committee.replicas,
      r.Serves x.cluster.settings (.waiting b) := by
    intro r hr
    have hold := h.serves r hr
    rw [hstage] at hold
    exact ⟨hold.role, fun _ => hold.last List.not_mem_nil⟩
  refine ⟨x.cluster.committee.members_propose v b ▸ h.leader,
    Committee.serves_propose hserves v b, h.sourced.propose proposed_of_agrees v hproposed, ?_,
    fun b' hb' => Option.some.inj hb' ▸ hchosen⟩
  intro m hm
  rcases List.mem_append.mp hm with hold | hnew
  · exact h.sent m hold
  · unfold Committee.proposal at hnew
    cases hr : x.cluster.committee.find? v with
    | none =>
        rw [hr] at hnew
        cases hnew
    | some r =>
        rw [hr] at hnew
        obtain ⟨a, ha, hmessage⟩ := mem_messagesOf.mp hnew
        have hanswer := (h.sourced.replicas r (Committee.mem_of_find? hr).1).answer
          proposed_of_agrees (c := .propose b) fun _ => hproposed
        exact (hanswer.2 a ha).of_message hmessage

theorem refuse {b : Block} (hstage : x.stage = .opening b []) (v : ValidatorId) :
    { x.goOn (x.cluster.committee.propose v b).2 with stage := .idle }.Manned := by
  have hproposed : x.Proposed b := ⟨b, h.chosen b (by rw [hstage]; rfl), .rfl⟩
  exact (h.goOn (x.cluster.committee.members_propose v b)
    (Committee.serves_propose h.serves v b)
    (h.sourced.propose proposed_of_agrees v hproposed)).idle

theorem work (e : Event) : (x.goOn (x.cluster.committee.step e)).Manned :=
  have hmoved := x.cluster.committee.moved_step e
  h.goOn (Committee.members_moved hmoved) (Committee.serves_moved h.serves h.sourced hmoved)
    (h.sourced.moved proposed_of_agrees hmoved)

theorem step {y : Chronicle σ} (hstep : Step x y) : y.Manned := by
  cases hstep with
  | submit t idle => exact ⟨h.leader, h.serves, h.sourced, h.sent, h.chosen⟩
  | work e => exact h.work e
  | rewire n carried => exact h.rewire carried
  | choose idle => exact h.choose
  | begin stage => exact h.startRunOf stage _
  | propose stage proposes =>
      have hnext := h.propose stage x.cluster.settings.leader
      rw [proposes] at hnext
      exact hnext
  | refuse stage refuses =>
      have hnext := h.refuse stage x.cluster.settings.leader
      rw [refuses] at hnext
      exact hnext
  | fail stage fails => exact h.idle
  | succeed stage agrees concludes => exact h.succeed concludes _

end Manned

-- A new cluster has a replica in every seat, the leader's among them, and nothing is under way.
theorem manned_start {s : Settings} {config : NetworkConfig} {sources : Nat → KeySource}
    {first : Cluster ChaCha} (h : Cluster.start s config sources = .ok first) :
    (start first).Manned := by
  obtain ⟨hvalid, rs, hmembers, hnew, rfl⟩ := Cluster.start_eq_ok h
  obtain ⟨v, hfind, -⟩ := (Settings.validate_eq_ok_iff.mp hvalid).leader
  have hleader : s.leader ∈ s.committee := by
    have hid : v.id = s.leader := by simpa using List.find?_some hfind
    exact hid ▸ List.mem_map_of_mem (List.mem_of_find?_eq_some hfind)
  refine ⟨hmembers ▸ hleader, fun r hr => ?_, ⟨?_, fun e he => absurd he List.not_mem_nil,
    fun r hr => ?_⟩, by simp [start], by simp [start, Stage.block?]⟩
  · obtain ⟨signer, hr⟩ := hnew r hr
    have hrole : r.role = s.roleOf r.id := by
      rw [hr]
      rfl
    exact ⟨hrole, False.elim⟩
  · intro e he m hm
    obtain ⟨w, -, rfl⟩ := List.mem_map.mp he
    cases hm
  · obtain ⟨signer, hr⟩ := hnew r hr
    exact hr ▸ Replica.stores_create ..

theorem manned_of_reachable {first : Cluster σ} [WordSource σ] (hfirst : (start first).Manned)
    {x : Chronicle σ} (h : Reachable first x) : x.Manned := by
  induction h with
  | start => exact hfirst
  | step before step ih => exact ih.step step

end Chronicle

end QuorumLedger
