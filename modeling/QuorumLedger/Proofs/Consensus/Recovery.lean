import Mathlib.Algebra.BigOperators.Group.Finset.Piecewise
import QuorumLedger.Proofs.Consensus.Retry

namespace QuorumLedger

-- Whatever was read was read of somebody.
theorem countP_map_eq_sum {A : Finset ValidatorId} {read : List (ValidatorId × Message)}
    (h : ∀ e ∈ read, e.1 ∈ A) (p : Message → Bool) :
    (read.map (·.2)).countP p = ∑ u ∈ A, (readFrom u read).countP p := by
  induction read with
  | nil => simp [readFrom]
  | cons e rest ih =>
      obtain ⟨he, hrest⟩ := List.forall_mem_cons.mp h
      have hstep : ∀ u, (readFrom u (e :: rest)).countP p =
          (readFrom u rest).countP p + if u = e.1 then (if p e.2 then 1 else 0) else 0 := by
        intro u
        by_cases hu : u = e.1
        · simp [readFrom, hu, List.countP_cons]
        · simp [readFrom, hu, Ne.symm hu]
      simp only [List.map_cons, List.countP_cons, ih hrest, hstep, Finset.sum_add_distrib,
        Finset.sum_ite_eq', he, if_true]

namespace Meeting

-- Whether a message is a vote for the block of the meeting.
def isVote (M : Meeting) (kind : MessageKind) (m : Message) : Bool :=
  m.kind = kind ∧ m.blockId = M.block.id

-- The members that delivered in a run.
def reached (M : Meeting) (x : Exchange) : Finset ValidatorId :=
  M.members.filter fun v => (x.sessions v).replica.isDelivered

open Classical in
-- The members that sent a vote for the block in a run.
noncomputable def senders (M : Meeting) (kind : MessageKind) (x : Exchange) : Finset ValidatorId :=
  M.members.filter fun u => (x.sessions u).Sent kind M.block.id

variable {M : Meeting} {x y : Exchange} {kind : MessageKind} {u v : ValidatorId}

theorem mem_senders :
    u ∈ M.senders kind x ↔ u ∈ M.members ∧ (x.sessions u).Sent kind M.block.id := by
  simp [senders]

theorem mem_reached :
    v ∈ M.reached x ↔ v ∈ M.members ∧ (x.sessions v).replica.isDelivered = true :=
  Finset.mem_filter

-- Members that were not reached make up for those that were.
theorem card_members_le_add {A : Finset ValidatorId}
    (h : ∀ w ∈ M.members, w ∉ M.reached x → w ∈ A) :
    M.thresholds.validators.toNat ≤ (M.reached x).card + A.card := by
  rw [← M.card_members]
  refine (Finset.card_le_card fun w hw => ?_).trans (Finset.card_union_le _ _)
  by_cases hw' : w ∈ M.reached x
  · exact Finset.mem_union_left _ hw'
  · exact Finset.mem_union_right _ (h w hw hw')

theorem length_votesFor (M : Meeting) (kind : MessageKind) (messages : List Message) :
    (votesFor kind M.block.id messages).length = messages.countP (M.isVote kind) :=
  List.countP_eq_length_filter.symm

-- Whoever sent a vote sent it to everyone.
theorem card_senders_le (M : Meeting) (kind : MessageKind) (x : Exchange) (v : ValidatorId) :
    (M.senders kind x).card ≤ ∑ u ∈ M.members, (M.inbound x u v).countP (M.isVote kind) :=
  calc (M.senders kind x).card = ∑ u ∈ M.senders kind x, 1 := Finset.card_eq_sum_ones _
    _ ≤ ∑ u ∈ M.senders kind x, (M.inbound x u v).countP (M.isVote kind) := by
        refine Finset.sum_le_sum fun u hu => ?_
        obtain ⟨m, hm, hkind, hd⟩ := (mem_senders.mp hu).2
        exact List.countP_pos_iff.mpr
          ⟨m, List.mem_filterMap.mpr ⟨_, hm, rfl⟩, decide_eq_true ⟨hkind, hd⟩⟩
    _ ≤ ∑ u ∈ M.members, (M.inbound x u v).countP (M.isVote kind) :=
        Finset.sum_le_sum_of_subset fun u hu => (mem_senders.mp hu).1

namespace Sound

theorem diligent (h : M.Sound x) (hv : v ∈ M.honest) : (x.sessions v).Diligent :=
  have hfaithful := h.faithful v hv
  ⟨hfaithful.grounded, ⟨_, hfaithful.prompt⟩, hfaithful.settled⟩

theorem not_mem_finalized (h : M.Sound x) (hv : v ∈ M.honest)
    (hactive : (x.sessions v).replica.isDelivered = false) :
    M.block.id ∉ (x.sessions v).replica.finalized := by
  rw [(h.faithful v hv).fresh hactive]
  exact List.not_mem_nil

-- No more READYs count than members sent one.
theorem length_votesFor_le (h : M.Sound x) (hclean : M.faulty = ∅) (hv : v ∈ M.honest) :
    (votesFor .ready M.block.id (x.sessions v).counted).length ≤ (M.senders .ready x).card := by
  have hsigned : ∀ m ∈ (x.sessions v).counted, m.signer?.isSome := by
    intro m hm
    obtain ⟨u, hu, -⟩ := h.signer_of_mem_counted hv hm
    simp [hu]
  rw [← length_voters hsigned, ← List.toFinset_card_of_nodup (h.nodup_voters hv _)]
  refine Finset.card_le_card fun u hu => mem_senders.mpr ?_
  obtain ⟨hmember, hsent⟩ := h.sent_of_mem_voters hv (List.mem_toFinset.mp hu)
  exact ⟨hmember, hsent (mem_honest hclean hmember)⟩

-- Who did not deliver counted every READY that it read.
theorem countP_ready_le (h : M.Sound x) (hclean : M.faulty = ∅) (hv : v ∈ M.members)
    (hactive : (x.sessions v).replica.isDelivered = false) :
    ∑ u ∈ M.members, (readFrom u (x.read v)).countP (M.isVote .ready) ≤
      (votesFor .ready M.block.id (x.sessions v).counted).length := by
  have hvoter : ∀ u ∈ M.members, (readFrom u (x.read v)).countP (M.isVote .ready) ≤
      if u ∈ (voters .ready M.block.id (x.sessions v).counted).toFinset then 1 else 0 := by
    intro u hu
    split
    · exact h.countP_ready_le_one hu hv _
    · rename_i hnot
      refine Nat.le_zero.mpr (List.countP_eq_zero.mpr fun m hm hvote => hnot ?_)
      obtain ⟨hkind, hd⟩ := of_decide_eq_true hvote
      have hread := mem_readFrom.mp hm
      exact List.mem_toFinset.mpr (mem_voters.mpr ⟨m, (h.reads v (mem_honest hclean hv)).honest
        hactive _ hread (mem_honest hclean hu), hkind, hd, h.signer_of_mem_read hv _ hread⟩)
  calc ∑ u ∈ M.members, (readFrom u (x.read v)).countP (M.isVote .ready)
      ≤ ∑ u ∈ M.members,
          if u ∈ (voters .ready M.block.id (x.sessions v).counted).toFinset then 1 else 0 :=
        Finset.sum_le_sum hvoter
    _ = (M.members.filter
          (· ∈ (voters .ready M.block.id (x.sessions v).counted).toFinset)).card :=
        (Finset.card_filter _ _).symm
    _ ≤ (voters .ready M.block.id (x.sessions v).counted).toFinset.card :=
        Finset.card_le_card fun u hu => (Finset.mem_filter.mp hu).2
    _ ≤ (voters .ready M.block.id (x.sessions v).counted).length := List.toFinset_card_le _
    _ ≤ (votesFor .ready M.block.id (x.sessions v).counted).length := List.length_filterMap_le _ _

-- A delivery takes READYs of more members than a member may count without one.
theorem lt_card_of_reached (h : M.Sound x) (hclean : M.faulty = ∅)
    (hsome : 0 < (M.reached x).card) :
    M.thresholds.deliveryThreshold < (M.senders .ready x).card := by
  obtain ⟨v, hv⟩ := Finset.card_pos.mp hsome
  obtain ⟨hmember, hdelivered⟩ := mem_reached.mp hv
  have hhonest := mem_honest hclean hmember
  have hfaithful := h.faithful v hhonest
  obtain ⟨height, hd⟩ := (h.delivers_of_isDelivered hhonest hdelivered).2.1
  have hover := of_decide_eq_true (hfaithful.grounded.replica.delivered _ _ hd)
  rw [hfaithful.thresholds] at hover
  exact hover.trans_le (h.length_votesFor_le hclean hhonest)

theorem reached_subset (h : M.Sound x) (hclean : M.faulty = ∅) :
    M.reached x ⊆ M.senders .ready x := by
  intro v hv
  obtain ⟨hmember, hdelivered⟩ := mem_reached.mp hv
  exact mem_senders.mpr
    ⟨hmember, (h.delivers_of_isDelivered (mem_honest hclean hmember) hdelivered).2.2⟩

end Sound

theorem Continues.delivers_of_isDelivered {s : Session} {read : List (ValidatorId × Message)}
    (h : M.Continues x v s read) (hdelivered : s.replica.isDelivered = true) :
    s.Delivers M.block.id ∧ s.Sent .ready M.block.id := by
  obtain ⟨first, hprompt⟩ := h.diligent.prompt
  exact (h.member.delivers_of_isDelivered hprompt hdelivered).2

-- A member that delivered in neither run.
structure Stuck (M : Meeting) (x y : Exchange) (v : ValidatorId) : Prop where
  member : v ∈ M.members
  before : (x.sessions v).replica.isDelivered = false
  after : (y.sessions v).replica.isDelivered = false

-- What such a member shows of the READYs that it counted in the first run and in the second.
structure Tallies (M : Meeting) (x y : Exchange) (v : ValidatorId) (first second : Nat) :
    Prop where
  total : (M.senders .ready x).card + (M.senders .ready y).card ≤ first + second
  first_le_card : first ≤ (M.senders .ready x).card
  first_le : first ≤ M.thresholds.deliveryThreshold
  second_le : second ≤ M.thresholds.deliveryThreshold
  first_lt : v ∉ M.senders .ready x → first < M.thresholds.readyQuorum
  second_lt : v ∉ M.senders .ready y → second < M.thresholds.readyQuorum
  echoes_lt : v ∉ M.senders .ready y → (M.senders .echo y).card < M.thresholds.echoQuorum

section SecondRun

variable (hclean : M.faulty = ∅) (hx : M.Sound x) (hy : M.Again x y) (hdrained : M.Drained x y)

include hclean hx hy hdrained

-- All that goes to a stuck member in the second run counts.
theorem Stuck.length_votesFor (h : M.Stuck x y v) (kind : MessageKind) :
    (votesFor kind M.block.id (y.sessions v).counted).length =
      ∑ u ∈ M.members, (M.onward x y u v).countP (M.isVote kind) := by
  have hnew := hx.not_mem_finalized (mem_honest hclean h.member) h.before
  rw [M.length_votesFor, (hy.continues v h.member).counted hnew h.after,
    countP_map_eq_sum (hy.sources v h.member)]
  exact Finset.sum_congr rfl fun u hu => by rw [hdrained u hu v h.member]

theorem Stuck.card_echo_le (h : M.Stuck x y v) :
    (M.senders .echo y).card ≤ (votesFor .echo M.block.id (y.sessions v).counted).length := by
  rw [h.length_votesFor hclean hx hy hdrained]
  refine (M.card_senders_le .echo y v).trans (Finset.sum_le_sum fun u _ => ?_)
  rw [onward, List.countP_append]
  exact Nat.le_add_left _ _

-- A READY of the first run counts in one of both runs, and so does one of the second.
theorem Stuck.card_ready_le (h : M.Stuck x y v) :
    (M.senders .ready x).card + (M.senders .ready y).card ≤
      (votesFor .ready M.block.id (x.sessions v).counted).length +
        (votesFor .ready M.block.id (y.sessions v).counted).length := by
  rw [h.length_votesFor hclean hx hy hdrained]
  calc (M.senders .ready x).card + (M.senders .ready y).card
      ≤ ∑ u ∈ M.members, (M.inbound x u v).countP (M.isVote .ready) +
          ∑ u ∈ M.members, (M.inbound y u v).countP (M.isVote .ready) :=
        Nat.add_le_add (M.card_senders_le .ready x v) (M.card_senders_le .ready y v)
    _ = ∑ u ∈ M.members, (readFrom u (x.read v)).countP (M.isVote .ready) +
          ∑ u ∈ M.members, (M.onward x y u v).countP (M.isVote .ready) := by
        rw [← Finset.sum_add_distrib, ← Finset.sum_add_distrib]
        refine Finset.sum_congr rfl fun u hu => ?_
        rw [← List.countP_append, ← List.countP_append, readFrom_append_onward hx hu h.member]
    _ ≤ _ := Nat.add_le_add_right (hx.countP_ready_le hclean h.member h.before) _

theorem Stuck.tallies (h : M.Stuck x y v) : ∃ first second, M.Tallies x y v first second := by
  have hhonest := mem_honest hclean h.member
  have hnow := hy.continues v h.member
  have hfirst := (hx.diligent hhonest).length_votesFor_le (d := M.block.id) h.before
  have hsecond := hnow.diligent.length_votesFor_le (d := M.block.id) h.after
  rw [(hx.faithful v hhonest).thresholds] at hfirst
  rw [hnow.thresholds] at hsecond
  refine ⟨_, _, h.card_ready_le hclean hx hy hdrained, hx.length_votesFor_le hclean hhonest, hfirst,
    hsecond, fun hnot => ?_, fun hnot => ?_, fun hnot => ?_⟩
  · by_contra hquorum
    rw [← (hx.faithful v hhonest).thresholds, Nat.not_lt] at hquorum
    exact hnot (mem_senders.mpr
      ⟨h.member, (hx.diligent hhonest).sent_ready_of_readies h.before hquorum⟩)
  · by_contra hquorum
    rw [← hnow.thresholds, Nat.not_lt] at hquorum
    exact hnot (mem_senders.mpr
      ⟨h.member, hnow.diligent.sent_ready_of_readies h.after hquorum⟩)
  · by_contra hquorum
    have hcount := (Nat.not_lt.mp hquorum).trans (h.card_echo_le hclean hx hy hdrained)
    have hsome : 0 < M.thresholds.echoQuorum := by
      have henough := M.enough
      unfold Thresholds.deliveryThreshold at henough
      unfold Thresholds.echoQuorum
      omega
    exact hnot (mem_senders.mpr ⟨h.member, hnow.diligent.sent_ready h.after (by omega)
      (hnow.thresholds ▸ hcount)⟩)

-- Whoever the first run did not reach takes part in the second.
theorem mem_senders_of_not_reached (hproposed : y.proposed = true) (hv : v ∈ M.members)
    (hleft : v ∉ M.reached x) : v ∈ M.senders .echo y ∪ M.senders .ready y := by
  have hnow := hy.continues v hv
  by_cases hdelivered : (y.sessions v).replica.isDelivered
  · exact Finset.mem_union_right _
      (mem_senders.mpr ⟨hv, (hnow.delivers_of_isDelivered hdelivered).2⟩)
  · have hbefore : (x.sessions v).replica.isDelivered = false :=
      Bool.eq_false_iff.mpr fun h => hleft (mem_reached.mpr ⟨hv, h⟩)
    have hactive := Bool.eq_false_iff.mpr hdelivered
    have hnew := hx.not_mem_finalized (mem_honest hclean hv) hbefore
    obtain ⟨m, hm, hkind, -⟩ := hy.proposal hproposed
    have hin : m ∈ M.onward x y M.leader v :=
      List.mem_append_right _ (List.mem_filterMap.mpr ⟨_, hm, rfl⟩)
    rw [← hdrained _ (mem_members M.leader_honest) v hv] at hin
    have hcounted : m ∈ (y.sessions v).counted :=
      hnow.counted hnew hactive ▸ List.mem_map.mpr ⟨_, mem_readFrom.mp hin, rfl⟩
    obtain ⟨m', hm', hecho⟩ := hnow.diligent.exists_echo hactive ⟨m, hcounted, hkind⟩
    exact Finset.mem_union_left _
      (mem_senders.mpr ⟨hv, m', hm', hecho, hnow.member.blockId_of_broadcast hm'⟩)

theorem card_members_le (hproposed : y.proposed = true) :
    M.thresholds.validators.toNat ≤
      (M.reached x).card + ((M.senders .echo y).card + (M.senders .ready y).card) :=
  (card_members_le_add fun _ hw hleft =>
    mem_senders_of_not_reached hclean hx hy hdrained hproposed hw hleft).trans
      (Nat.add_le_add_left (Finset.card_union_le _ _) _)

theorem tallies_of_silent (hv : v ∈ M.members) (hleft : v ∉ M.reached x)
    (hsilent : v ∉ M.senders .ready y) : ∃ first second, M.Tallies x y v first second := by
  refine Stuck.tallies hclean hx hy hdrained ⟨hv, ?_, ?_⟩
  · exact Bool.eq_false_iff.mpr fun h => hleft (mem_reached.mpr ⟨hv, h⟩)
  · exact Bool.eq_false_iff.mpr fun h => hsilent
      (mem_senders.mpr ⟨hv, ((hy.continues v hv).delivers_of_isDelivered h).2⟩)

-- Once somebody has delivered, there are so many READYs that who counted few of them in the second
-- run counted many in the first. So everyone sent READY in one of both.
theorem card_members_le_of_reached (hsome : 0 < (M.reached x).card) :
    M.thresholds.validators.toNat ≤ (M.senders .ready x).card + (M.senders .ready y).card := by
  have hmany := hx.lt_card_of_reached hclean hsome
  rw [← M.card_members]
  refine (Finset.card_le_card fun u hu => ?_).trans (Finset.card_union_le _ _)
  by_contra hneither
  obtain ⟨hbefore, hafter⟩ := not_or.mp (Finset.mem_union.not.mp hneither)
  obtain ⟨first, second, h⟩ := tallies_of_silent hclean hx hy hdrained hu
    (fun hreached => hbefore (hx.reached_subset hclean hreached)) hafter
  have htotal := h.total
  have hfirst := h.first_lt hbefore
  have hsecond := h.second_lt hafter
  unfold Thresholds.deliveryThreshold at hmany
  unfold Thresholds.readyQuorum at hfirst hsecond
  omega

end SecondRun

-- The cuts that a second run makes good: with members enough beyond the faults that are tolerated
-- any, with fewer only such that few had delivered.
def Recoverable (M : Meeting) (x : Exchange) : Prop :=
  4 * M.thresholds.faulty.toNat + 1 < M.thresholds.validators.toNat ∨
    (3 * M.thresholds.faulty.toNat + 1 < M.thresholds.validators.toNat ∧
      (M.reached x).card + 2 * M.thresholds.faulty.toNat < M.thresholds.validators.toNat) ∨
    (3 * M.thresholds.faulty.toNat ≤ M.thresholds.validators.toNat ∧ (M.reached x).card ≤ 1)

section Recovery

variable (hclean : M.faulty = ∅) (hx : M.Sound x) (hy : M.Again x y) (hdrained : M.Drained x y)
  (hproposed : y.proposed = true) (hcut : M.Recoverable x)

include hclean hx hy hdrained hproposed hcut

-- With no READY of one that was left, there would be too few ECHOs for so many members, or READYs
-- of everyone, which are too many for one to have counted few.
theorem mem_senders_ready_of_not_reached (hv : v ∈ M.members) (hleft : v ∉ M.reached x) :
    v ∈ M.senders .ready y := by
  by_contra hsilent
  obtain ⟨first, second, h⟩ := tallies_of_silent hclean hx hy hdrained hv hleft hsilent
  have hvotes := card_members_le hclean hx hy hdrained hproposed
  have hmany := hx.lt_card_of_reached hclean
  have hall := card_members_le_of_reached hclean hx hy hdrained
  have htotal := h.total
  have hfirst := h.first_le
  have hcard := h.first_le_card
  have hsecond := h.second_lt hsilent
  have hechoes := h.echoes_lt hsilent
  unfold Recoverable at hcut
  unfold Thresholds.deliveryThreshold at hfirst hmany
  unfold Thresholds.readyQuorum at hsecond
  unfold Thresholds.echoQuorum at hechoes
  omega

-- Everyone that was left sent READY again, and these READYs add to those of the first run.
theorem not_stuck : ¬ M.Stuck x y v := by
  intro hstuck
  have hleft : v ∉ M.reached x := fun h => by
    have hdelivered := (mem_reached.mp h).2
    rw [hstuck.before] at hdelivered
    cases hdelivered
  obtain ⟨first, second, h⟩ := hstuck.tallies hclean hx hy hdrained
  have hvotes := card_members_le_add fun w hw hleft =>
    mem_senders_ready_of_not_reached hclean hx hy hdrained hproposed hcut hw hleft
  have hmany := hx.lt_card_of_reached hclean
  have hreached : (M.reached x).card < (M.senders .ready x).card ∨
      (M.reached x).card ≤ (M.senders .ready x).card ∧ first < M.thresholds.readyQuorum := by
    by_cases hready : v ∈ M.senders .ready x
    · exact .inl (Finset.card_lt_card
        ⟨hx.reached_subset hclean, fun hsame => hleft (hsame hready)⟩)
    · exact .inr ⟨Finset.card_le_card (hx.reached_subset hclean), h.first_lt hready⟩
  have htotal := h.total
  have hfirst := h.first_le
  have hcard := h.first_le_card
  have hsecond := h.second_le
  have henough := M.enough
  unfold Recoverable at hcut
  unfold Thresholds.deliveryThreshold at hfirst hsecond hmany henough
  unfold Thresholds.readyQuorum at hreached
  omega

end Recovery

-- Who delivered before the cut ignores what comes later about the block, and the READYs that the
-- others counted before are forgotten. What is left is enough nevertheless, if members are many or
-- those that delivered are few.
theorem delivers_of_drained (hclean : M.faulty = ∅) (hx : M.Reachable x) (hcut : M.Recoverable x)
    (hy : M.Resumed x y) (hproposed : y.proposed = true) (hdrained : M.Drained x y) :
    ∀ v ∈ M.members,
      (x.sessions v).Delivers M.block.id ∨ (y.sessions v).Delivers M.block.id := by
  intro v hv
  have hsound := sound_of_reachable hx
  have hagain := again_of_resumed hclean hsound hy
  by_contra hneither
  obtain ⟨hbefore, hafter⟩ := not_or.mp hneither
  refine not_stuck hclean hsound hagain hdrained hproposed hcut ⟨hv, ?_, ?_⟩
  · exact Bool.eq_false_iff.mpr fun h =>
      hbefore (hsound.delivers_of_isDelivered (mem_honest hclean hv) h).2.1
  · exact Bool.eq_false_iff.mpr fun h =>
      hafter ((hagain.continues v hv).delivers_of_isDelivered h).1

-- A proposal delivers nothing.
theorem reached_propose (M : Meeting) (x : Exchange) : M.reached (M.propose x) = M.reached x := by
  ext v
  rw [mem_reached, mem_reached]
  by_cases hv : v = M.leader
  · obtain ⟨signer, hnext⟩ := (x.sessions M.leader).replica.propose_snd M.block
    have hreplica : ((M.propose x).sessions M.leader).replica =
        { (x.sessions M.leader).replica with signer } := by
      change (x.sessions.call M.leader _ M.leader).replica = _
      rw [Assembly.call_self]
      exact hnext
    rw [hv, hreplica]
    rfl
  · have hsame : (M.propose x).sessions v = x.sessions v := x.sessions.call_of_ne hv _
    rw [hsame]

-- Five honest members, one of which might as well be faulty.
def fiveHonest : Meeting :=
  { five with
    faulty := ∅
    faulty_subset := by decide
    card_faulty := by decide
    seats := fun v => ⟨if v = ⟨0⟩ then .proposer else .regular, ⟨5, 1⟩,
      [⟨0⟩, ⟨1⟩, ⟨2⟩, ⟨3⟩, ⟨4⟩], .steady .blank⟩
    leader_honest := by decide
    leader_proposes := rfl
    isHonest := by decide
    supplied := fun _ _ => Signer.steady_supplied _
    common := fun _ _ => rfl
    enough := by decide }

-- The same committee with the last member counted as faulty.
def fourOfFive : Meeting :=
  { fiveHonest with
    faulty := {⟨4⟩}
    faulty_subset := by decide
    card_faulty := by decide
    leader_honest := by decide
    isHonest := by decide
    supplied := fun _ _ => Signer.steady_supplied _
    common := fun _ _ => rfl
    enough := by decide }

theorem reachable_fourOfFive (hx : fiveHonest.Reachable x) : fourOfFive.Reachable x := by
  induction hx with
  | start => exact .start
  | propose before first ih => exact .propose ih first
  | handle before member sources inOrder ih => exact .handle ih member sources inOrder

-- Four members agree among themselves, and the last takes nothing from the network.
theorem exists_heard :
    ∃ x, fiveHonest.Reachable x ∧ x.proposed = true ∧ x.read ⟨4⟩ = [] ∧
      fourOfFive.honest ⊆ fiveHonest.reached x := by
  have hmember : ∀ v ∈ fourOfFive.honest, v ∈ fiveHonest.members := by decide
  obtain ⟨x, ⟨hx, hproposed, hread⟩, hheard⟩ := Exchange.exists_taken
    (I := fun x => fiveHonest.Reachable x ∧ x.proposed = true ∧ x.read ⟨4⟩ = [])
    (A := fourOfFive.honest) (F := fiveHonest.inbound)
    (fun x hx u hu v hv => (sound_of_reachable hx.1).inOrder v (hmember v hv) u (hmember u hu))
    (fun x hx u hu v _ => length_inbound_le hx.1 (hmember u hu) v)
    (fun x u v m hx hu hv hnext => by
      have hother : (⟨4⟩ : ValidatorId) ≠ v := fun he => absurd (he ▸ hv) (by decide)
      exact ⟨hx.1.take (hmember u hu) (hmember v hv) hnext, hx.2.1,
        (x.read_handle_of_ne _ hother).trans hx.2.2⟩)
    (x := fiveHonest.propose fiveHonest.start) ⟨.propose .start rfl, rfl, rfl⟩
  have hsound := sound_of_reachable (reachable_fourOfFive hx)
  have hall := hsound.all_ready hheard hproposed
  exact ⟨x, hx, hproposed, hread, fun v hv => mem_reached.mpr
    ⟨hmember v hv, hsound.isDelivered_of_all_ready hheard hall hv⟩⟩

-- Before several have delivered one is the first.
theorem exists_card_reached_eq_one (hx : M.Reachable x) (hsome : (M.reached x).Nonempty) :
    ∃ z, M.Reachable z ∧ z.proposed = true ∧ (M.reached z).card = 1 := by
  induction hx with
  | start =>
      obtain ⟨v, hv⟩ := hsome
      cases (mem_reached.mp hv).2
  | propose before first ih => exact ih (by rwa [reached_propose] at hsome)
  | @handle x v picks before member sources inOrder ih =>
      by_cases hbefore : (M.reached x).Nonempty
      · exact ih hbefore
      · have hone : M.reached (x.handle v picks) ⊆ {v} := by
          intro w hw
          by_contra hwv
          rw [Finset.mem_singleton] at hwv
          rw [mem_reached, x.sessions_handle_of_ne picks hwv] at hw
          exact hbefore ⟨w, mem_reached.mpr hw⟩
        have hcard : (M.reached (x.handle v picks)).card = 1 :=
          Nat.le_antisymm (Finset.card_le_card hone) (Finset.card_pos.mpr hsome)
        have hreachable := Reachable.handle before member sources inOrder
        -- a proposal that has yet to come may as well come now
        cases hproposed : x.proposed with
        | true => exact ⟨_, hreachable, hproposed, hcard⟩
        | false =>
            exact ⟨_, .propose hreachable hproposed, rfl, by rwa [reached_propose]⟩

-- The first run is cut right after the first delivery.
theorem delivers_of_drained_five :
    ∃ x y, fiveHonest.faulty = ∅ ∧ fiveHonest.Reachable x ∧ x.proposed = true ∧
      (fiveHonest.reached x).card = 1 ∧ fiveHonest.Recoverable x ∧ fiveHonest.Resumed x y ∧
      y.proposed = true ∧ fiveHonest.Drained x y ∧ ∀ v ∈ fiveHonest.members,
        (x.sessions v).Delivers fiveHonest.block.id ∨
          (y.sessions v).Delivers fiveHonest.block.id := by
  obtain ⟨z, hz, -, -, hreached⟩ := exists_heard
  obtain ⟨x, hx, hfirst, hcard⟩ := exists_card_reached_eq_one hz ⟨⟨0⟩, hreached (by decide)⟩
  have hcut : fiveHonest.Recoverable x := .inr (.inr ⟨by decide, hcard.le⟩)
  have hagain : fiveHonest.Resumed x (fiveHonest.propose (fiveHonest.restart x)) :=
    .propose .restart rfl
  obtain ⟨y, hy, hdrained, hproposed⟩ := exists_drained rfl hx hagain
  exact ⟨x, y, rfl, hx, hfirst, hcard, hcut, hy, hproposed, hdrained,
    delivers_of_drained rfl hx hcut hy hproposed hdrained⟩

theorem readFrom_flatMap {us : List ValidatorId} (hnodup : us.Nodup)
    (F : ValidatorId → List Message) (u : ValidatorId) :
    readFrom u (us.flatMap fun w => (F w).map (w, ·)) = if u ∈ us then F u else [] := by
  have hone : ∀ w, readFrom u ((F w).map (w, ·)) = if w = u then F w else [] := by
    intro w
    by_cases hw : w = u <;> simp [readFrom, hw, List.filter_map, Function.comp_def]
  induction us with
  | nil => rfl
  | cons w rest ih =>
      obtain ⟨hnew, hrest⟩ := List.nodup_cons.mp hnodup
      rw [List.flatMap_cons, readFrom_append, hone, ih hrest]
      by_cases hw : w = u
      · subst hw
        simp [hnew]
      · simp [hw, Ne.symm hw]

-- A cut after which the last member is left alone. It has read what three of the others sent, and
-- nothing of the leader and itself.
structure LeavesLast (x : Exchange) : Prop where
  reachable : fiveHonest.Reachable x
  proposed : x.proposed = true
  delivers : ∀ v ∈ fourOfFive.honest, (x.sessions v).Delivers fiveHonest.block.id
  read : ∀ u, readFrom u (x.read ⟨4⟩) =
    if u ∈ [⟨1⟩, ⟨2⟩, ⟨3⟩] then fiveHonest.inbound x u ⟨4⟩ else []

theorem exists_leavesLast : ∃ x, LeavesLast x := by
  obtain ⟨x, hx, hproposed, hread, hreached⟩ := exists_heard
  let picks := ([⟨1⟩, ⟨2⟩, ⟨3⟩] : List ValidatorId).flatMap fun w =>
    (fiveHonest.inbound x w ⟨4⟩).map (w, ·)
  have hpicks : ∀ u, readFrom u (x.read ⟨4⟩ ++ picks) =
      if u ∈ [⟨1⟩, ⟨2⟩, ⟨3⟩] then fiveHonest.inbound x u ⟨4⟩ else [] := fun u => by
    rw [hread, List.nil_append]
    exact readFrom_flatMap (by decide) _ u
  have hsame : ∀ u ≠ ⟨4⟩, (x.handle ⟨4⟩ picks).sessions u = x.sessions u := fun u hu =>
    x.sessions_handle_of_ne picks hu
  refine ⟨x.handle ⟨4⟩ picks, .handle hx (by decide) ?_ fun u _ => ?_, hproposed, ?_, fun u => ?_⟩
  · intro e he
    obtain ⟨w, hw, he⟩ := List.mem_flatMap.mp he
    obtain ⟨m, -, rfl⟩ := List.mem_map.mp he
    have hthree : ∀ w ∈ ([⟨1⟩, ⟨2⟩, ⟨3⟩] : List ValidatorId), w ∈ fiveHonest.members := by decide
    exact hthree w hw
  · rw [hpicks]
    split
    · exact List.prefix_rfl
    · exact List.nil_prefix
  · intro v hv
    have hhonest : ∀ v ∈ fourOfFive.honest, v ∈ fiveHonest.honest := by decide
    rw [hsame v fun he => absurd (he ▸ hv) (by decide)]
    exact ((sound_of_reachable hx).delivers_of_isDelivered (hhonest v hv)
      (mem_reached.mp (hreached hv)).2).2.1
  · rw [x.read_handle_self, hpicks]
    split
    · rename_i hu
      have hne : u ≠ ⟨4⟩ := fun he => absurd (he ▸ hu) (by decide)
      rw [inbound, inbound, hsame u hne]
    · rfl

-- Nobody counts more votes than were read of each.
theorem length_votesFor_le_sum {counted : List Message} {read : List (ValidatorId × Message)}
    (hcounted : counted.Sublist (read.map (·.2))) (hsources : ∀ e ∈ read, e.1 ∈ M.members)
    {g : ValidatorId → Nat}
    (hg : ∀ u ∈ M.members, (readFrom u read).countP (M.isVote kind) ≤ g u) :
    (votesFor kind M.block.id counted).length ≤ ∑ u ∈ M.members, g u := by
  rw [M.length_votesFor]
  refine hcounted.countP_le.trans ?_
  rw [countP_map_eq_sum hsources]
  exact Finset.sum_le_sum hg

-- Who counts nothing in the second run sends no READY there.
theorem Continues.countP_ready_eq_zero {read : List (ValidatorId × Message)}
    (h : M.Continues x u (y.sessions u) read) (hnone : (y.sessions u).counted = [])
    (v : ValidatorId) : (M.inbound y u v).countP (M.isVote .ready) = 0 := by
  refine List.countP_eq_zero.mpr fun m hm hvote => ?_
  obtain ⟨a, ha, hmessage⟩ := mem_done_of_mem_inbound hm
  cases a with
  | broadcast m' =>
      cases hmessage
      have hcause := h.diligent.grounded.replica.ready m ha (of_decide_eq_true hvote).1
      have henough := M.enough
      rw [hnone, h.thresholds] at hcause
      unfold Thresholds.deliveryThreshold at henough
      simp only [votesFor, List.filter_nil, List.length_nil, Thresholds.echoQuorum,
        Thresholds.readyQuorum] at hcause
      omega
  | sendToLeader m' => exact h.linked.toAll m' ha
  | delivered d height => cases hmessage

namespace LeavesLast

-- Three READYs do not exceed the limit.
theorem not_delivers (h : LeavesLast x) : ¬ (x.sessions ⟨4⟩).Delivers fiveHonest.block.id := by
  rintro ⟨height, hd⟩
  have hsound := sound_of_reachable h.reachable
  have hlast : (⟨4⟩ : ValidatorId) ∈ fiveHonest.honest := by decide
  have hover := of_decide_eq_true ((hsound.faithful _ hlast).grounded.replica.delivered _ _ hd)
  rw [(hsound.faithful _ hlast).thresholds] at hover
  have hread : ∀ u ∈ fiveHonest.members,
      (readFrom u (x.read ⟨4⟩)).countP (fiveHonest.isVote .ready) ≤
        if u ∈ ([⟨1⟩, ⟨2⟩, ⟨3⟩] : List ValidatorId) then 1 else 0 := by
    intro u hu
    split
    · exact hsound.countP_ready_le_one hu (mem_members hlast) _
    · rename_i hnot
      rw [h.read, if_neg hnot]
      exact Nat.le_refl 0
  have hcount := length_votesFor_le_sum (hsound.reads _ hlast).counted
    (hsound.sources _ (mem_members hlast)) hread
  exact absurd (hover.trans_le hcount) (by decide)

theorem countP_ready_eq_zero (h : LeavesLast x) (hy : fiveHonest.Again x y)
    (hu : u ∈ fourOfFive.honest) (v : ValidatorId) :
    (fiveHonest.inbound y u v).countP (fiveHonest.isVote .ready) = 0 := by
  have hmember : ∀ u ∈ fourOfFive.honest, u ∈ fiveHonest.honest := by decide
  obtain ⟨height, hdelivered⟩ := h.delivers u hu
  have hcontinues := hy.continues u (mem_members (hmember u hu))
  exact hcontinues.countP_ready_eq_zero (hcontinues.silent
    (remembers_of_reachable h.reachable u (hmember u hu) _ height hdelivered)) v

-- Of the READYs of the others only the leader's is left in the second run, and the member's own of
-- either run.
theorem countP_ready_onward_le (h : LeavesLast x) (hy : fiveHonest.Again x y)
    (hu : u ∈ fiveHonest.members) :
    (fiveHonest.onward x y u ⟨4⟩).countP (fiveHonest.isVote .ready) ≤
      if u ∈ ([⟨1⟩, ⟨2⟩, ⟨3⟩] : List ValidatorId) then 0 else if u = ⟨4⟩ then 2 else 1 := by
  have hbacklog : (fiveHonest.backlog x u ⟨4⟩).countP (fiveHonest.isVote .ready) ≤ 1 :=
    (List.drop_sublist _ _).countP_le.trans
      (((sound_of_reachable h.reachable).member u hu).countP_ready_inbound_le _ _)
  rw [onward, List.countP_append]
  split
  · rename_i hthree
    have hnone : fiveHonest.backlog x u ⟨4⟩ = [] := by
      rw [backlog, h.read, if_pos hthree, List.drop_length]
    have hfour : ∀ w ∈ ([⟨1⟩, ⟨2⟩, ⟨3⟩] : List ValidatorId), w ∈ fourOfFive.honest := by decide
    rw [hnone, h.countP_ready_eq_zero hy (hfour u hthree)]
    exact Nat.le_refl 0
  · split
    · exact Nat.add_le_add hbacklog ((hy.continues u hu).member.countP_ready_inbound_le _ _)
    · rename_i hnot
      have hfour : u ∈ fourOfFive.honest := Finset.mem_sdiff.mpr
        ⟨hu, fun h => hnot (Finset.mem_singleton.mp h)⟩
      rw [h.countP_ready_eq_zero hy hfour]
      exact hbacklog

theorem not_delivers_again (h : LeavesLast x) (hy : fiveHonest.Resumed x y) :
    ¬ (y.sessions ⟨4⟩).Delivers fiveHonest.block.id := by
  rintro ⟨height, hd⟩
  have hsound := sound_of_reachable h.reachable
  have hagain := again_of_resumed rfl hsound hy
  have hlast : (⟨4⟩ : ValidatorId) ∈ fiveHonest.members := by decide
  have hself := hagain.continues _ hlast
  have hover := of_decide_eq_true (hself.diligent.grounded.replica.delivered _ _ hd)
  rw [hself.thresholds] at hover
  have hcount := length_votesFor_le_sum (bounded_of_resumed rfl hsound hy _ hlast).counted
    (hagain.sources _ hlast) fun u hu => (hagain.inOrder _ hlast u hu).sublist.countP_le.trans
      (h.countP_ready_onward_le hagain hu)
  exact absurd (hover.trans_le hcount) (by decide)

end LeavesLast

-- Four of five have delivered when the run is cut, and the last has counted three READYs. What is
-- left does not make up for the three that it forgets.
theorem not_delivers_of_drained :
    ¬ ∀ (M : Meeting) (x y : Exchange), M.faulty = ∅ → M.Reachable x → x.proposed = true →
      M.Resumed x y → y.proposed = true → M.Drained x y → ∀ v ∈ M.members,
        (x.sessions v).Delivers M.block.id ∨ (y.sessions v).Delivers M.block.id := by
  intro hall
  obtain ⟨x, hx⟩ := exists_leavesLast
  obtain ⟨y, hy, hdrained, hagain⟩ := exists_drained rfl hx.reachable
    (.propose .restart rfl : fiveHonest.Resumed x (fiveHonest.propose (fiveHonest.restart x)))
  exact (hall fiveHonest x y rfl hx.reachable hx.proposed hy hagain hdrained ⟨4⟩ (by decide)).elim
    hx.not_delivers (hx.not_delivers_again hy)

end Meeting

end QuorumLedger
