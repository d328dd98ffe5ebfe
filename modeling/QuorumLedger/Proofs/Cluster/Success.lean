import QuorumLedger.Proofs.Cluster.Leader
import QuorumLedger.Proofs.Consensus.Convergence

namespace QuorumLedger

namespace Table

variable {κ α : Type} [DecidableEq κ] (k : κ) (a : α)

theorem get?_singleton : Table.get? ⟨[(k, a)]⟩ k = some a := by
  simp [get?, find]

theorem erase_singleton : Table.erase ⟨[(k, a)]⟩ k = ∅ :=
  congrArg Table.mk (by simp)

end Table

namespace Committee

variable {σ : Type}

theorem mem_put_of_nodup {r r' : Replica} {rs : List Replica} (hnodup : (rs.map (·.id)).Nodup)
    (h : r' ∈ put r rs) : r' = r ∨ r' ∈ rs ∧ r'.id ≠ r.id := by
  induction rs with
  | nil => cases h
  | cons s rest ih =>
      obtain ⟨hs, hrest⟩ := List.nodup_cons.mp hnodup
      unfold put at h
      split at h
      · rename_i hsame
        refine (List.mem_cons.mp h).imp id fun hmem => ⟨List.mem_cons_of_mem _ hmem, fun hid => ?_⟩
        exact hs (List.mem_map.mpr ⟨r', hmem, hid.trans hsame.symm⟩)
      · rename_i hother
        rcases List.mem_cons.mp h with rfl | h
        · exact .inr ⟨List.mem_cons_self, hother⟩
        · exact (ih hrest h).imp id fun hold => ⟨List.mem_cons_of_mem _ hold.1, hold.2⟩

theorem get?_of_idle {c : Committee σ} (hidle : c.outbox = ∅) (v : ValidatorId) :
    c.outbox.get? v = none := by
  rw [hidle, Table.get?_empty]

variable [WordSource σ] {c : Committee σ} (hidle : c.outbox = ∅) {v : ValidatorId} {r : Replica}
  (hfind : c.find? v = some r)

include hidle hfind

-- A worker that holds nothing hands its validator the one message that waits, and sends what comes
-- of it when it is woken.
theorem turn_turn_of_idle {m : Message} (hinbox : c.network.inboxes = ⟨[(v, ⟨[m]⟩)]⟩)
    (hprompt : (r.handleBatch [m]).2.role.faults.delaySend = false) :
    (c.turn v).held = messagesOf (r.handleBatch [m]).1 ∧ ∃ network, (c.turn v).turn v = { c with
      network
      replicas := put (r.handleBatch [m]).2 c.replicas } := by
  obtain ⟨network, hdrain⟩ : ∃ network, c.network.drain v = ([m], network) := by
    simp [Network.drain, hinbox, Table.get?_singleton, Inbox.drain]
  have hwake : c.wakeTime (r.handleBatch [m]).2 (r.handleBatch [m]).1 = c.now := by
    simp [wakeTime, hprompt]
  have hhandled : c.turn v = { c with
      network
      replicas := put (r.handleBatch [m]).2 c.replicas
      outbox := ⟨[(v, c.now, (r.handleBatch [m]).1)]⟩ } := by
    simp only [turn, get?_of_idle hidle, handle, hfind, hdrain, hwake]
    rw [hidle]
    rfl
  rw [hhandled, hidle]
  refine ⟨by simp [held], perform v (r.handleBatch [m]).1 network, ?_⟩
  simp only [turn, Table.get?_singleton, if_true, Nat.le_refl, send, Table.erase_singleton]

theorem propose_of_idle {b : Block} {actions : List Action} {r' : Replica}
    (hpropose : r.propose b = (.ok actions, r')) :
    ∃ network, c.propose v b = (.ok (), { c with network, replicas := put r' c.replicas }) := by
  have hsend : c.send v = c := by simp only [send, get?_of_idle hidle]
  exact ⟨perform v actions c.network, by simp only [propose, hsend, hfind, hpropose]⟩

end Committee

namespace Chronicle

variable {σ : Type}

-- One validator of an idle committee has answered a call, what it sent is known, and the committee
-- is idle again.
structure Answered (x : Chronicle σ) (r : Replica) (c : Replica.Call) (y : Chronicle σ) : Prop where
  goes : x.Goes y.cluster.committee y
  idle : y.cluster.committee.outbox = ∅
  replicas : y.cluster.committee.replicas =
    Committee.put (r.answer c).2 x.cluster.committee.replicas
  sent : x.sent ++ messagesOf (r.answer c).1 ⊆ y.sent

namespace Reachable

variable [WordSource σ] {first : Cluster σ} {x : Chronicle σ} (h : Reachable first x)
  (hidle : x.cluster.committee.outbox = ∅) {v : ValidatorId} {r : Replica}

include h hidle

-- The network brings a message that was sent before.
theorem take (hfind : x.cluster.committee.find? v = some r) {m : Message} (hm : m ∈ x.sent)
    (hprompt : (r.handleBatch [m]).2.role.faults.delaySend = false) :
    ∃ y, Reachable first y ∧ x.Answered r (.batch [m]) y ∧ y.stage = x.stage := by
  let network := { x.cluster.committee.network with inboxes := ⟨[(v, ⟨[m]⟩)]⟩ }
  let c := { x.cluster.committee with network }
  have hcarried : ∀ e ∈ network.inboxes.entries, ∀ m' ∈ e.2.messages, m' ∈ x.sent := by
    simpa [network] using hm
  have hworked : Reachable first (((x.goOn c).goOn (c.turn v)).goOn ((c.turn v).turn v)) :=
    ((h.step (.rewire network hcarried)).step (.work (.turn v))).step (.work (.turn v))
  obtain ⟨hheld, n, hturned⟩ := Committee.turn_turn_of_idle (c := c) hidle hfind rfl hprompt
  refine ⟨_, hworked, ⟨⟨rfl, rfl, rfl⟩, ?_, ?_, ?_⟩, rfl⟩
  · simp only [goOn, hturned]
    exact hidle
  · simp only [goOn, hturned]
    rfl
  · intro m' hm'
    simp only [goOn, hheld, List.mem_append]
    rcases List.mem_append.mp hm' with hold | hnew
    · exact .inl (.inl (.inl hold))
    · exact .inl (.inr hnew)

theorem propose {b : Block} (hstage : x.stage = .opening b [])
    (hfind : x.cluster.committee.find? x.cluster.settings.leader = some r) {actions : List Action}
    {r' : Replica} (hpropose : r.propose b = (.ok actions, r')) :
    ∃ y, Reachable first y ∧ x.Answered r (.propose b) y ∧ y.stage = .waiting b := by
  obtain ⟨n, hproposes⟩ := Committee.propose_of_idle hidle hfind hpropose
  have hanswer : r.answer (.propose b) = (actions, r') := by simp only [Replica.answer, hpropose]
  refine ⟨_, h.step (.propose hstage hproposes), ⟨⟨rfl, rfl, rfl⟩, hidle, ?_, ?_⟩, rfl⟩
  · rw [hanswer]
    rfl
  · refine List.append_subset.mpr ⟨List.subset_append_left _ _, ?_⟩
    simp only [Committee.proposal, hfind, Option.map_some, Option.getD_some]
    exact List.subset_append_right _ _

end Reachable

-- Whether the validators are where the members of a committee are, with nothing left to send.
structure Plays (M : Meeting) (sessions : Assembly) (x : Chronicle σ) : Prop where
  members : ∀ v, v ∈ x.cluster.committee.members ↔ v ∈ M.members
  nodup : x.cluster.committee.members.Nodup
  idle : x.cluster.committee.outbox = ∅
  replicas : ∀ r ∈ x.cluster.committee.replicas, r = (sessions r.id).replica
  sent : ∀ v ∈ M.members, messagesOf (sessions v).done ⊆ x.sent

namespace Plays

variable {M : Meeting} {sessions : Assembly} {x y : Chronicle σ} (h : x.Plays M sessions)

include h

theorem exists_find? {v : ValidatorId} (hv : v ∈ M.members) :
    x.cluster.committee.find? v = some (sessions v).replica := by
  obtain ⟨r, hr⟩ := Committee.exists_find? ((h.members v).mpr hv)
  obtain ⟨hmem, rfl⟩ := Committee.mem_of_find? hr
  rw [hr, ← h.replicas r hmem]

theorem answered {v : ValidatorId} (hv : (sessions v).replica.id = v) {c : Replica.Call}
    (hproper : (sessions v).replica.tally.Proper) (hc : c.isStart = false)
    (hanswered : x.Answered (sessions v).replica c y) : y.Plays M (sessions.call v c) := by
  have hself : (sessions.call v c v) = (sessions v).answer c := sessions.call_self v c
  rw [Session.answer_eq _ hc] at hself
  have hid : ((sessions v).replica.answer c).2.id = v :=
    (Replica.answer_sameSeat hproper c).id.trans hv
  have hmembers : y.cluster.committee.members = x.cluster.committee.members := by
    unfold Committee.members
    rw [hanswered.replicas]
    exact Committee.map_id_put
  obtain ⟨hold, hnew⟩ := List.append_subset.mp hanswered.sent
  refine ⟨hmembers ▸ h.members, hmembers ▸ h.nodup, hanswered.idle, fun r hr => ?_,
    fun w hw => ?_⟩
  · rw [hanswered.replicas] at hr
    rcases Committee.mem_put_of_nodup h.nodup hr with rfl | ⟨hmem, hother⟩
    · rw [hid, hself]
    · rw [sessions.call_of_ne (hid ▸ hother)]
      exact h.replicas r hmem
  · by_cases hwv : w = v
    · subst hwv
      rw [hself, messagesOf_append]
      exact List.append_subset.mpr ⟨List.Subset.trans (h.sent w hw) hold, hnew⟩
    · rw [sessions.call_of_ne hwv]
      exact List.Subset.trans (h.sent w hw) hold

end Plays

end Chronicle

theorem Cluster.outcome_eq_ok {σ : Type} {c : Cluster σ} {b : Block}
    (h : ∀ r ∈ c.committee.replicas, r.isDelivered = true ∧ r.tally.voted = some b.id) :
    c.outcome b = .ok c.votes := by
  have hall : (c.committee.replicas.filter isHonest).countP Replica.isDelivered =
      (c.committee.replicas.filter isHonest).length :=
    List.countP_eq_length.mpr fun r hr => (h r (List.mem_of_mem_filter hr)).1
  have hsame : (c.committee.replicas.filter isHonest).any
      (fun r => !decide (r.tally.voted = some b.id)) = false :=
    List.any_eq_false.mpr fun r hr => by simp [(h r (List.mem_of_mem_filter hr)).2]
  simp only [outcome, hall, Nat.lt_irrefl, if_false, hsame, Bool.false_eq_true]

-- The validators of a cluster begin the next run as the members of a committee, all of them honest.
structure Cluster.Hosts {σ : Type} (c : Cluster σ) (M : Meeting) : Prop where
  members : ∀ v, v ∈ c.committee.members ↔ v ∈ M.members
  nodup : c.committee.members.Nodup
  idle : c.committee.outbox = ∅
  replicas : ∀ r ∈ c.committee.replicas,
    r.startRun M.view = ((M.seats r.id).replica r.id).startRun M.view
  honest : M.honest = M.members
  leader : c.settings.leader = M.leader
  view : c.pool.view = M.view
  block : c.nextBlock.1 = M.block
  height : ∃ height, c.height.next = .ok height

namespace Cluster.Hosts

open Chronicle (Reachable)

variable {σ : Type} [WordSource σ] {first : Cluster σ} {x : Chronicle σ} {M : Meeting}

-- The network brings a member the next message of another.
theorem take (hhonest : M.honest = M.members) {e : Exchange} (he : M.Reachable e)
    {y : Chronicle σ} (hy : Reachable first y) (hplays : y.Plays M e.sessions)
    {u v : ValidatorId} (hu : u ∈ M.members) (hv : v ∈ M.members) {m : Message}
    (hnext : readFrom u (e.read v) ++ [m] <+: M.inbound e u v) :
    ∃ z, Reachable first z ∧ y.Goes z.cluster.committee z ∧ z.stage = y.stage ∧
      z.Plays M (e.handle v [(u, m)]).sessions := by
  have hsound := Meeting.sound_of_reachable he
  have hmember := hsound.member v hv
  have hfaithful := hsound.faithful v (hhonest ▸ hv)
  have hm : m ∈ y.sent := by
    obtain ⟨a, ha, hmessage⟩ := Meeting.mem_done_of_mem_inbound
      (hnext.subset (List.mem_append_right _ List.mem_cons_self))
    exact hplays.sent u hu (mem_messagesOf.mpr ⟨a, ha, hmessage⟩)
  have hprompt :
      ((e.sessions v).replica.handleBatch [m]).2.role.faults.delaySend = false := by
    have hrole : ((e.sessions v).replica.handleBatch [m]).2.role = (M.seats v).role :=
      (Replica.answer_sameSeat hmember.stores.proper (.batch [m])).role.trans hfaithful.role
    have hfaults : (M.seats v).role.faults = .none := M.isHonest v (hhonest ▸ hv)
    rw [hrole, hfaults]
    rfl
  obtain ⟨z, hz, hanswered, hstage⟩ := hy.take hplays.idle (hplays.exists_find? hv) hm hprompt
  exact ⟨z, hz, hanswered.goes, hstage,
    hplays.answered hmember.id hmember.stores.proper rfl hanswered⟩

section Round

variable (h : x.cluster.Hosts M) (hx : Reachable first x) (hidle : x.stage = .idle)

include h hx hidle

theorem opened : ∃ y, Reachable first y ∧ x.choose.Goes y.cluster.committee y ∧
    y.stage = .opening M.block [] ∧ y.Plays M M.start.sessions := by
  obtain ⟨y, hy, hgoes, hstage⟩ := (hx.step (.choose hidle)).beginAll rfl
  have hmembers : ∀ r ∈ x.cluster.committee.replicas, r.id ∈ x.cluster.committee.members :=
    fun r hr => List.mem_map_of_mem hr
  have hview : x.choose.cluster.pool.view = x.cluster.pool.view := by
    obtain ⟨taken, left, -, -, hnext⟩ := x.cluster.nextBlock_cases
    exact congrArg (fun c => c.pool.view) hnext
  have hcommittee : y.cluster.committee =
      x.cluster.committee.startRun x.cluster.pool.view := by
    rw [hgoes.committee, ← hview]
    exact Committee.foldl_startRunOf hmembers
  have hsame : y.cluster.committee.members = x.cluster.committee.members := by
    rw [hcommittee, Committee.members_startRun]
  refine ⟨y, hy, hgoes.committee ▸ hgoes, h.block ▸ hstage, hsame ▸ h.members, hsame ▸ h.nodup,
    ?_, ?_, fun v _ => List.nil_subset _⟩
  · rw [hcommittee]
    exact h.idle
  · rw [hcommittee]
    refine List.forall_mem_map.mpr fun r hr => ?_
    rw [h.view]
    exact h.replicas r hr

-- What the honest leader proposes is on its way.
theorem proposed : ∃ y, Reachable first y ∧ x.choose.Goes y.cluster.committee y ∧
    y.stage = .waiting M.block ∧ y.Plays M (M.propose M.start).sessions := by
  obtain ⟨y, hy, hgoes, hstage, hplays⟩ := h.opened hx hidle
  have hsound := Meeting.sound_start (M := M)
  have hmember := hsound.member _ (Meeting.mem_members M.leader_honest)
  have hfaithful := hsound.faithful _ M.leader_honest
  have hleader : y.cluster.settings.leader = M.leader := by
    rw [hgoes.cluster]
    exact h.leader
  have hfind := hplays.exists_find? (Meeting.mem_members M.leader_honest)
  obtain ⟨m, signer, -, hanswer, -⟩ := Replica.propose_of_supplied hfaithful.prompt.supplied
    (hfaithful.role ▸ M.leader_proposes) M.block
  rcases hpropose : (M.start.sessions M.leader).replica.propose M.block with ⟨e | actions, r'⟩
  · simp [Replica.answer, hpropose] at hanswer
  · obtain ⟨z, hz, hanswered, hwaits⟩ :=
      hy.propose hplays.idle hstage (hleader ▸ hfind) hpropose
    refine ⟨z, hz, hgoes.trans hanswered.goes, hwaits, ?_⟩
    exact hplays.answered hmember.id hmember.stores.proper rfl hanswered

-- Messages are taken one by one until nothing is left, so all have delivered.
theorem delivered : ∃ y, Reachable first y ∧ x.choose.Goes y.cluster.committee y ∧
    y.stage = .waiting M.block ∧ ∀ r ∈ y.cluster.committee.replicas,
      r.isDelivered = true ∧ r.tally.voted = some M.block.id := by
  obtain ⟨e, ⟨he, hproposed, y, hy, hgoes, hstage, hplays⟩, hquiet⟩ := Exchange.exists_taken
    (I := fun e => M.Reachable e ∧ e.proposed = true ∧ ∃ y, Reachable first y ∧
      x.choose.Goes y.cluster.committee y ∧ y.stage = .waiting M.block ∧ y.Plays M e.sessions)
    (fun e he u hu v hv => (Meeting.sound_of_reachable he.1).inOrder v hv u hu)
    (fun e he u hu v _ => Meeting.length_inbound_le he.1 hu v)
    (fun e u v m he hu hv hnext => by
      obtain ⟨he, hproposed, y, hy, hgoes, hstage, hplays⟩ := he
      obtain ⟨z, hz, hgoes', hstage', hplays'⟩ := take h.honest he hy hplays hu hv hnext
      exact ⟨he.take hu hv hnext, hproposed, z, hz, hgoes.trans hgoes', hstage'.trans hstage,
        hplays'⟩)
    ⟨.propose .start rfl, rfl, h.proposed hx hidle⟩
  refine ⟨y, hy, hgoes, hstage, fun r hr => ?_⟩
  have hsound := Meeting.sound_of_reachable he
  have hheard := Meeting.Quiet.heard hquiet
  have hmember : r.id ∈ M.honest :=
    h.honest ▸ (hplays.members r.id).mp (List.mem_map_of_mem hr)
  have hdelivered := hsound.isDelivered_of_all_ready hheard
    (hsound.all_ready hheard hproposed) hmember
  have hvoted := (hsound.delivers_of_isDelivered hmember hdelivered).1
  rw [hplays.replicas r hr]
  exact ⟨hdelivered, hvoted⟩

-- The leader's block is applied, or what the leader took it for.
theorem succeeds : ∃ y, Reachable first y ∧ y.stage = .idle ∧
    y.proposed = x.proposed ++ [M.block] ∧ ∃ b, y.successes = x.successes ++ [⟨M.block, b⟩] := by
  obtain ⟨y, hy, hgoes, hstage, hdelivered⟩ := h.delivered hx hidle
  obtain ⟨height, hheight⟩ := h.height
  have hnext : y.cluster.height.next = .ok height := by
    rw [hgoes.cluster]
    exact hheight
  have hagrees := Cluster.outcome_eq_ok hdelivered
  refine ⟨_, hy.step (.succeed hstage hagrees (by simp only [Cluster.conclude, hnext]; rfl)), rfl,
    ?_, ?_⟩
  · rw [hgoes.proposed, ← h.block]
    rfl
  · rw [hgoes.successes]
    exact ⟨_, rfl⟩

end Round

end Cluster.Hosts

-- A payment, and a round that ends before anybody hears of the block with it.
def Cluster.stalling : List Cluster.Request :=
  [.submit (Journal.handing ⟨0⟩ ⟨1⟩), .next ⟨[], 0⟩ ⟨[], 0⟩]

def Cluster.stalled : Cluster ChaCha :=
  stalling.foldl answer paired

theorem Cluster.rounds_stalling : paired.rounds stalling =
    [(Journal.handingBlock ⟨0⟩ ⟨1⟩, .error (.timeout ⟨1⟩ 0 2))] :=
  rfl

theorem Chronicle.exists_stalled :
    ∃ x, Reachable Cluster.paired x ∧ x.stage = .idle ∧ x.cluster = .stalled ∧
      x.proposed = [Journal.handingBlock ⟨0⟩ ⟨1⟩] ∧ x.successes = [] := by
  have hcause : ∀ r ∈ (start Cluster.paired).cluster.rounds Cluster.stalling, ∀ cause,
      r.2 ≠ .error (.overflow cause) := by simp [start, Cluster.rounds_stalling]
  obtain ⟨x, hx, hidle, hcluster, hproposed, hsuccesses⟩ := Reachable.start.answers rfl hcause
  simp only [start, Cluster.rounds_stalling] at hproposed hsuccesses
  exact ⟨x, hx, hidle, hcluster, hproposed, hsuccesses⟩

-- Two honest members, the first of which has used up a key, and the block that their cluster
-- chooses when nothing is queued any more.
def Meeting.pair : Meeting where
  thresholds := ⟨2, 0⟩
  members := {⟨0⟩, ⟨1⟩}
  faulty := ∅
  card_members := rfl
  faulty_subset := by decide
  card_faulty := by decide
  leader := ⟨0⟩
  view := Cluster.stalled.pool.view
  block := Cluster.stalled.nextBlock.1
  seats := fun v =>
    ⟨if v = ⟨0⟩ then .proposer else .regular, ⟨2, 0⟩, [⟨0⟩, ⟨1⟩],
      ⟨.blank, fun _ => .ok .blank, if v = ⟨0⟩ then 2 else 1⟩⟩
  leader_honest := by decide
  leader_proposes := rfl
  isHonest := by decide
  supplied := fun _ _ _ => ⟨.blank, rfl⟩
  common := fun _ _ => rfl
  passes := Block.check_blank _
  enough := by decide

theorem Cluster.replicas_stalled : stalled.committee.replicas =
    [((Meeting.pair.seats ⟨0⟩).replica ⟨0⟩).startRun Meeting.pair.view,
      ((Meeting.pair.seats ⟨1⟩).replica ⟨1⟩).startRun Meeting.pair.view] :=
  rfl

theorem Cluster.hosts_stalled : stalled.Hosts .pair where
  members := by simp [Committee.members, replicas_stalled, Meeting.pair, Seat.replica,
    Replica.create, Replica.startRun]
  nodup := by decide
  idle := rfl
  replicas := by
    rw [replicas_stalled]
    simp only [List.forall_mem_cons, Replica.startRun_startRun]
    exact ⟨rfl, rfl, List.forall_mem_nil _⟩
  honest := by decide
  leader := rfl
  view := rfl
  block := rfl
  height := ⟨⟨2⟩, rfl⟩

end QuorumLedger
