import QuorumLedger.Proofs.Consensus.Quiescence

namespace QuorumLedger.Meeting

variable {M : Meeting} {x : Exchange}

-- Nothing that an honest member sent is left to be taken by another.
def Heard (M : Meeting) (x : Exchange) : Prop :=
  ∀ u ∈ M.honest, ∀ v ∈ M.honest, readFrom u (x.read v) = M.inbound x u v

theorem Quiet.heard (h : M.Quiet x) : M.Heard x := fun u hu v hv =>
  h u (mem_members hu) v (mem_members hv)

-- No member sends two READYs for a block.
theorem Member.countP_ready_inbound_le {u : ValidatorId} (h : M.Member u (x.sessions u))
    (v : ValidatorId) (d : Digest) :
    (M.inbound x u v).countP (fun m => m.kind = .ready ∧ m.blockId = d) ≤ 1 :=
  calc (M.inbound x u v).countP (fun m => m.kind = .ready ∧ m.blockId = d)
      ≤ (x.sessions u).done.countP (Action.isReadyFor d) := countP_toward_le _ _ _ _
    _ ≤ 1 := (h.sparing d).trans (Tally.marks_le_one ..)

theorem Member.blockId_of_broadcast {v : ValidatorId} {s : Session} (h : M.Member v s) {m : Message}
    (hm : .broadcast m ∈ s.done) : m.blockId = M.block.id := by
  have hcontent : M.Says m.block := h.carries _ hm
  exact Block.Agrees.id hcontent

-- What a member delivers is the block that was proposed, and READY for it was sent before.
theorem Member.delivers_of_isDelivered {v : ValidatorId} {s : Session} (h : M.Member v s)
    {first : PublicKey} (hprompt : s.replica.Prompt first s.counted s.done)
    (hdelivered : s.replica.isDelivered = true) :
    s.replica.tally.voted = some M.block.id ∧ s.Delivers M.block.id ∧
      s.Sent .ready M.block.id := by
  obtain ⟨d, height, hvoted, hready, hd⟩ := hprompt.delivered hdelivered
  obtain ⟨b, hb, rfl, rfl⟩ := h.carries _ hd
  rw [Block.Agrees.id hb] at hvoted hready hd
  exact ⟨hvoted, ⟨_, hd⟩, hprompt.ready _ hready⟩

namespace Sound

theorem signer_of_mem_read (h : M.Sound x) {v : ValidatorId} (hv : v ∈ M.members) :
    ∀ e ∈ x.read v, e.2.signer? = some e.1 := by
  intro e he
  have hsource := h.sources v hv e he
  exact (h.says_of_mem_inbound hsource
    ((h.inOrder v hv e.1 hsource).subset (mem_readFrom.mpr he))).2

theorem signer_of_mem_counted (h : M.Sound x) {v : ValidatorId} (hv : v ∈ M.honest) {m : Message}
    (hm : m ∈ (x.sessions v).counted) : ∃ u, m.signer? = some u ∧ (u, m) ∈ x.read v := by
  obtain ⟨e, he, rfl⟩ := List.mem_map.mp ((h.reads v hv).counted.subset hm)
  exact ⟨e.1, h.signer_of_mem_read (mem_members hv) e he, he⟩

-- A READY that counts was sent by a member.
theorem sent_of_mem_voters (h : M.Sound x) {v : ValidatorId} (hv : v ∈ M.honest)
    {d : Digest} {u : ValidatorId} (hu : u ∈ voters .ready d (x.sessions v).counted) :
    u ∈ M.members ∧ (u ∈ M.honest → (x.sessions u).Sent .ready d) := by
  obtain ⟨m, hm, hkind, hd, hsigner⟩ := mem_voters.mp hu
  obtain ⟨u', hsigner', hread⟩ := h.signer_of_mem_counted hv hm
  obtain rfl : u' = u := Option.some.inj (hsigner'.symm.trans hsigner)
  have hmember := h.sources v (mem_members hv) _ hread
  refine ⟨hmember, fun hhonest => ?_⟩
  have hin := (h.inOrder v (mem_members hv) _ hmember).subset (mem_readFrom.mpr hread)
  obtain ⟨a, ha, hmessage⟩ := mem_done_of_mem_inbound hin
  cases a with
  | broadcast m' => exact ⟨m', ha, Option.some.inj hmessage ▸ ⟨hkind, hd⟩⟩
  | sendToLeader m' => exact absurd ha ((h.faithful u' hhonest).prompt.toAll m')
  | delivered d' height => cases hmessage

-- Nobody reads two READYs of one member for a block, since nobody sends two.
theorem countP_ready_le_one (h : M.Sound x) {u v : ValidatorId} (hu : u ∈ M.members)
    (hv : v ∈ M.members) (d : Digest) :
    (readFrom u (x.read v)).countP (fun m => m.kind = .ready ∧ m.blockId = d) ≤ 1 :=
  (h.inOrder v hv u hu).sublist.countP_le.trans ((h.member u hu).countP_ready_inbound_le v d)

theorem nodup_voters (h : M.Sound x) {v : ValidatorId} (hv : v ∈ M.honest) (d : Digest) :
    (voters .ready d (x.sessions v).counted).Nodup := by
  rw [List.nodup_iff_count_le_one]
  intro u
  by_cases hu : u ∈ voters .ready d (x.sessions v).counted
  · calc (voters .ready d (x.sessions v).counted).count u
        = ((x.sessions v).counted.filter fun m => m.signer? = some u).countP
            fun m => m.kind = .ready ∧ m.blockId = d := count_voters ..
      _ ≤ (((x.read v).map (·.2)).filter fun m => m.signer? = some u).countP
            fun m => m.kind = .ready ∧ m.blockId = d :=
          ((h.reads v hv).counted.filter _).countP_le
      _ = (readFrom u (x.read v)).countP fun m => m.kind = .ready ∧ m.blockId = d := by
          rw [filter_signer_eq_readFrom (h.signer_of_mem_read (mem_members hv))]
      _ ≤ 1 := h.countP_ready_le_one (h.sent_of_mem_voters hv hu).1 (mem_members hv) d
  · rw [List.count_eq_zero_of_not_mem hu]
    exact Nat.zero_le 1

-- Everyone who has not delivered counted all that it heard of honest members.
theorem mem_counted (h : M.Sound x) (hheard : M.Heard x) {u v : ValidatorId} (hu : u ∈ M.honest)
    (hv : v ∈ M.honest) (hactive : (x.sessions v).replica.isDelivered = false) {m : Message}
    (hm : .broadcast m ∈ (x.sessions u).done) : m ∈ (x.sessions v).counted := by
  have hin : m ∈ M.inbound x u v := List.mem_filterMap.mpr ⟨_, hm, rfl⟩
  rw [← hheard u hu v hv] at hin
  exact (h.reads v hv).honest hactive (u, m) (mem_readFrom.mp hin) hu

theorem card_le_length_votesFor (h : M.Sound x) (hheard : M.Heard x) {v : ValidatorId}
    (hv : v ∈ M.honest) (hactive : (x.sessions v).replica.isDelivered = false)
    {kind : MessageKind} {d : Digest} {A : Finset ValidatorId} (hA : A ⊆ M.honest)
    (hsent : ∀ u ∈ A, (x.sessions u).Sent kind d) :
    A.card ≤ (votesFor kind d (x.sessions v).counted).length := by
  have hvoters : A ⊆ (voters kind d (x.sessions v).counted).toFinset := by
    intro u hu
    obtain ⟨m, hm, hkind, hd⟩ := hsent u hu
    have hsigner := (h.member u (mem_members (hA hu))).sealedBy _ hm m rfl
    exact List.mem_toFinset.mpr (mem_voters.mpr
      ⟨m, h.mem_counted hheard (hA hu) hv hactive hm, hkind, hd, hsigner⟩)
  calc A.card ≤ (voters kind d (x.sessions v).counted).toFinset.card := Finset.card_le_card hvoters
    _ ≤ (voters kind d (x.sessions v).counted).length := List.toFinset_card_le _
    _ ≤ (votesFor kind d (x.sessions v).counted).length := List.length_filterMap_le _ _

theorem delivers_of_isDelivered (h : M.Sound x) {v : ValidatorId} (hv : v ∈ M.honest)
    (hdelivered : (x.sessions v).replica.isDelivered = true) :
    (x.sessions v).replica.tally.voted = some M.block.id ∧ (x.sessions v).Delivers M.block.id ∧
      (x.sessions v).Sent .ready M.block.id :=
  (h.member v (mem_members hv)).delivers_of_isDelivered (h.faithful v hv).prompt hdelivered

-- Votes of the honest members alone are enough to deliver.
theorem isDelivered_of_all_ready (h : M.Sound x) (hheard : M.Heard x)
    (hall : ∀ u ∈ M.honest, (x.sessions u).Sent .ready M.block.id) {v : ValidatorId}
    (hv : v ∈ M.honest) : (x.sessions v).replica.isDelivered = true := by
  have hfaithful := h.faithful v hv
  by_contra hnot
  have hactive := Bool.eq_false_iff.mpr hnot
  have hcount := h.card_le_length_votesFor hheard hv hactive (Finset.Subset.refl _) hall
  have henough := M.enough
  have hcard := M.card_honest_add
  have hover : (x.sessions v).replica.thresholds.delivers
      (votesFor .ready M.block.id (x.sessions v).counted).length = true := by
    rw [hfaithful.thresholds]
    exact decide_eq_true (by omega)
  exact hnot (hfaithful.grounded.replica.isDelivered_of_votes hfaithful.settled hover)

-- A delivery rests on READYs of enough honest members to make everyone send READY.
theorem exists_ready_of_isDelivered (h : M.Sound x) {w : ValidatorId} (hw : w ∈ M.honest)
    (hdelivered : (x.sessions w).replica.isDelivered = true) :
    ∃ A ⊆ M.honest, M.thresholds.readyQuorum ≤ A.card ∧
      ∀ u ∈ A, (x.sessions u).Sent .ready M.block.id := by
  obtain ⟨height, hd⟩ := (h.delivers_of_isDelivered hw hdelivered).2.1
  have hover := (h.faithful w hw).grounded.replica.delivered _ _ hd
  have hsigned : ∀ m ∈ (x.sessions w).counted, m.signer?.isSome := by
    intro m hm
    obtain ⟨u, hu, -⟩ := h.signer_of_mem_counted hw hm
    simp [hu]
  rw [(h.faithful w hw).thresholds, ← length_voters hsigned,
    ← List.toFinset_card_of_nodup (h.nodup_voters hw _)] at hover
  refine ⟨(voters .ready M.block.id (x.sessions w).counted).toFinset ∩ M.honest,
    Finset.inter_subset_right, ?_, ?_⟩
  · have hmembers : (voters .ready M.block.id (x.sessions w).counted).toFinset ⊆ M.members :=
      fun u hu => (h.sent_of_mem_voters hw (List.mem_toFinset.mp hu)).1
    have hcard := Roster.card_le_card_inter_honest_add hmembers
    have hfaulty := M.card_faulty
    have hover' := of_decide_eq_true hover
    unfold Thresholds.deliveryThreshold at hover'
    unfold Thresholds.readyQuorum
    omega
  · intro u hu
    obtain ⟨hvoter, hhonest⟩ := Finset.mem_inter.mp hu
    exact (h.sent_of_mem_voters hw (List.mem_toFinset.mp hvoter)).2 hhonest

theorem all_ready_of_isDelivered (h : M.Sound x) (hheard : M.Heard x) {w : ValidatorId}
    (hw : w ∈ M.honest) (hdelivered : (x.sessions w).replica.isDelivered = true) :
    ∀ v ∈ M.honest, (x.sessions v).Sent .ready M.block.id := by
  obtain ⟨A, hA, hquorum, hsent⟩ := h.exists_ready_of_isDelivered hw hdelivered
  intro v hv
  by_cases hdone : (x.sessions v).replica.isDelivered
  · exact (h.delivers_of_isDelivered hv hdone).2.2
  · have hactive := Bool.eq_false_iff.mpr hdone
    have hfaithful := h.faithful v hv
    have hcount := h.card_le_length_votesFor hheard hv hactive hA hsent
    rw [← (hfaithful.grounded.replica.tallied hactive _).2] at hcount
    refine hfaithful.prompt.ready _ ((hfaithful.settled hactive).readies _ ?_)
    rw [hfaithful.thresholds]
    exact hquorum.trans hcount

theorem all_ready_of_none_delivered (h : M.Sound x) (hheard : M.Heard x)
    (hproposed : x.proposed = true)
    (hnone : ∀ v ∈ M.honest, (x.sessions v).replica.isDelivered = false) :
    ∀ v ∈ M.honest, (x.sessions v).Sent .ready M.block.id := by
  have hecho : ∀ v ∈ M.honest, (x.sessions v).Sent .echo M.block.id := by
    intro v hv
    have hfaithful := h.faithful v hv
    obtain ⟨m, hm, hkind⟩ := h.proposal hproposed
    have hcounted := h.mem_counted hheard M.leader_honest hv (hnone v hv) hm
    have hpending := (hfaithful.settled (hnone v hv)).pending
    have hanswer := hfaithful.prompt.echo (hnone v hv) ⟨m, hcounted, hkind⟩
    obtain ⟨m', hm', hecho⟩ := hanswer.resolve_left (by simp [hpending])
    exact ⟨m', hm', hecho, (h.member v (mem_members hv)).blockId_of_broadcast hm'⟩
  intro v hv
  have hfaithful := h.faithful v hv
  have hcount := h.card_le_length_votesFor hheard hv (hnone v hv) (Finset.Subset.refl _) hecho
  rw [← (hfaithful.grounded.replica.tallied (hnone v hv) _).1] at hcount
  have hquorum : M.thresholds.echoQuorum ≤ M.honest.card ∧ 0 < M.honest.card := by
    have henough := M.enough
    have hcard := M.card_honest_add
    have hfaulty := M.card_faulty
    unfold Thresholds.deliveryThreshold at henough
    unfold Thresholds.echoQuorum
    omega
  refine hfaithful.prompt.ready _ ((hfaithful.settled (hnone v hv)).echoes _ ?_ ?_)
  · omega
  · rw [hfaithful.thresholds]
    omega

-- If nobody delivered, everyone echoed and so everyone sent READY; if somebody did, its READYs made
-- everyone send READY.
theorem all_ready (h : M.Sound x) (hheard : M.Heard x) (hproposed : x.proposed = true) :
    ∀ v ∈ M.honest, (x.sessions v).Sent .ready M.block.id := by
  by_cases hsome : ∃ w ∈ M.honest, (x.sessions w).replica.isDelivered = true
  · obtain ⟨w, hw, hdelivered⟩ := hsome
    exact h.all_ready_of_isDelivered hheard hw hdelivered
  · refine h.all_ready_of_none_delivered hheard hproposed fun v hv => ?_
    exact Bool.eq_false_iff.mpr fun hdelivered => hsome ⟨v, hv, hdelivered⟩

end Sound

-- Everyone sent READY, and these are READYs enough for all.
theorem delivers_of_quiet (hx : M.Reachable x) (hproposed : x.proposed = true)
    (hquiet : M.Quiet x) :
    ∀ v ∈ M.honest, (x.sessions v).replica.tally.voted = some M.block.id ∧
      (x.sessions v).Delivers M.block.id := by
  have h := sound_of_reachable hx
  have hall := h.all_ready hquiet.heard hproposed
  intro v hv
  obtain ⟨hvoted, hdelivers, -⟩ :=
    h.delivers_of_isDelivered hv (h.isDelivered_of_all_ready hquiet.heard hall hv)
  exact ⟨hvoted, hdelivers⟩

-- Four honest members and one that relabels, reorders and holds back.
def five : Meeting where
  thresholds := ⟨5, 1⟩
  members := {⟨0⟩, ⟨1⟩, ⟨2⟩, ⟨3⟩, ⟨4⟩}
  faulty := {⟨4⟩}
  card_members := rfl
  faulty_subset := by decide
  card_faulty := by decide
  leader := ⟨0⟩
  view := ⟨∅, []⟩
  block := .blank
  seats := fun v =>
    ⟨if v = ⟨0⟩ then .proposer
      else if v = ⟨4⟩ then .simulated ⟨false, true, true, true, true⟩ else .regular,
      ⟨5, 1⟩, [⟨0⟩, ⟨1⟩, ⟨2⟩, ⟨3⟩, ⟨4⟩], .steady .blank⟩
  leader_honest := by decide
  leader_proposes := rfl
  isHonest := by decide
  supplied := fun _ _ => Signer.steady_supplied _
  common := fun _ _ => rfl
  passes := Block.check_blank _
  enough := by decide

theorem delivers_of_quiet_five :
    ∃ x, five.Reachable x ∧ x.proposed = true ∧ five.Quiet x ∧ ∀ v ∈ five.honest,
      (x.sessions v).replica.tally.voted = some five.block.id ∧
        (x.sessions v).Delivers five.block.id := by
  have hproposed : five.Reachable (five.propose five.start) := .propose .start rfl
  obtain ⟨x, hx, hquiet, hkept, -⟩ := exists_quiet hproposed
  exact ⟨x, hx, hkept, hquiet, delivers_of_quiet hx hkept hquiet⟩

end QuorumLedger.Meeting
