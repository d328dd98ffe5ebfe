import Mathlib.Algebra.Order.BigOperators.Group.Finset
import QuorumLedger.Proofs.Consensus.Exchange

namespace QuorumLedger

namespace Action

def isProposal (a : Action) : Bool :=
  a.message?.any fun m => m.kind = .send

theorem isSend_relabel (u : ValidatorId) (a : Action) : (a.relabel u).isSend = a.isSend := by
  cases a <;> rfl

theorem isSend_toLeaderOnly (a : Action) : a.toLeaderOnly.isSend = a.isSend := by
  cases a <;> rfl

theorem isProposal_relabel (u : ValidatorId) (a : Action) :
    (a.relabel u).isProposal = a.isProposal := by
  cases a <;> rfl

theorem isProposal_toLeaderOnly (a : Action) : a.toLeaderOnly.isProposal = a.isProposal := by
  cases a <;> rfl

end Action

namespace Replica

-- The messages sent in a run about one block: an ECHO for each SEND that counted, a READY if it was
-- marked, and the proposals. A SEND that waits for its ECHO is accounted for already.
def Terse (only : Digest) (proposals : Nat) (seen : List Message) (done : List Action)
    (r : Replica) : Prop :=
  done.countP Action.isSend + r.tally.pendingSend.toList.length ≤
    proposals + seen.countP (fun m => m.kind = .send) + r.tally.marks only

namespace Terse

variable {only : Digest} {proposals : Nat} {seen : List Message} {done : List Action} {r : Replica}

theorem clearSend (h : r.Terse only proposals seen done) :
    { r with tally := r.tally.clearSend }.Terse only proposals seen done :=
  Nat.le_trans (Nat.le_add_right _ _) h

theorem counting (h : r.Terse only proposals seen done) (m : Message) (s : Seal) :
    (r.counting m s).Terse only proposals (seen ++ [m]) done := by
  unfold Terse at h ⊢
  rw [List.countP_append]
  simp only [Replica.counting, Tally.pendingSend_take, Tally.marks_take]
  by_cases hm : m.kind = .send
  · simp only [hm, if_true, Option.toList_some, List.length_singleton, List.countP_singleton,
      decide_true]
    omega
  · simp only [hm, if_false, List.countP_singleton, decide_false]
    simpa using h

theorem act (h : r.Terse only proposals seen done) (hstores : r.Stores fun b => b.id = only)
    {actions : List Action} {r' : Replica} (hact : Act r actions r') :
    r'.Terse only proposals seen (done ++ actions) := by
  unfold Terse at h ⊢
  rw [List.countP_append]
  cases hact with
  | @echo d active pending =>
      have hone := Nat.le_trans (List.countP_le_length (p := Action.isSend))
        (length_vote_le { r with tally := r.tally.clearSend } .echo d Round.echo)
      obtain ⟨signer, hnext⟩ := vote_snd { r with tally := r.tally.clearSend } .echo d Round.echo
      have hpending : r.tally.pendingSend.toList.length = 1 := by rw [pending]; rfl
      have hcleared : r.tally.clearSend.pendingSend.toList.length = 0 := rfl
      have hmarks : r.tally.clearSend.marks only = r.tally.marks only := rfl
      rw [hnext]
      dsimp only at hone ⊢
      omega
  | @ready d round tally active mark call =>
      obtain ⟨hnew, rfl⟩ := Tally.markReady_eq_true mark
      obtain ⟨signer, hnext⟩ := vote_snd
        { r with tally := { r.tally with readySent := d :: r.tally.readySent } } .ready d round
      rw [hnext]
      dsimp only
      rw [Tally.marks_mark hnew]
      by_cases hd : d = only
      · have hone := Nat.le_trans (List.countP_le_length (p := Action.isSend))
          (length_vote_le { r with tally := { r.tally with readySent := d :: r.tally.readySent } }
            .ready d round)
        simp only [hd, if_true] at hone ⊢
        omega
      · have hnone : ({ r with tally := { r.tally with readySent := d :: r.tally.readySent } }.vote
            .ready d round).1 = [] := by
          refine List.eq_nil_iff_forall_not_mem.mpr fun a ha => ?_
          obtain ⟨m, b, -, hb, -⟩ := mem_vote ha
          obtain ⟨rfl, honly⟩ := hstores.blocks d b hb
          exact hd honly
        rw [hnone, if_neg hd]
        exact h
  | @deliver d active declared enough => exact h

end Terse

theorem Terse.outcome {only : Digest} {proposals : Nat} {seen : List Message} {done : List Action}
    {r : Replica} (h : r.Terse only proposals seen done) (hstores : r.Stores fun b => b.id = only)
    {batch : List Message} (hbatch : ∀ m ∈ batch, m.blockId = only) :
    (r.outcome batch).2.Terse only proposals (seen ++ r.counted batch)
      (done ++ (r.outcome batch).1) := by
  have hP : ∀ a b : Block, a.Agrees b → b.id = only → a.id = only := fun _ _ hagrees hb =>
    hagrees.id.trans hb
  exact (hstores.outcome_induct (I := fun seen done r => r.Terse only proposals seen done) hP batch
    seen done hbatch (fun _ _ _ m s h _ => h.counting m s) (fun _ _ _ _ h => h)
    (fun _ _ _ _ _ hstores h hact => h.act hstores hact) h fun _ => h.clearSend).2

-- Only a call to propose makes a proposal.
theorem countP_isProposal_outcome {r : Replica} (hproper : r.tally.Proper) (batch : List Message) :
    (r.outcome batch).1.countP Action.isProposal = 0 := by
  have hact : ∀ {r r' : Replica} {actions : List Action}, Act r actions r' →
      ∀ a ∈ actions, a.isProposal = false := by
    intro r r' actions h a ha
    cases h with
    | @echo d active pending =>
        obtain ⟨m, b, rfl, -, hm, -⟩ := mem_vote ha
        simp [Action.isProposal, Action.message?, hm.kind]
    | @ready d round tally active mark call =>
        obtain ⟨m, b, rfl, -, hm, -⟩ := mem_vote ha
        simp [Action.isProposal, Action.message?, hm.kind]
    | deliver active declared enough =>
        obtain rfl := List.mem_singleton.mp ha
        rfl
  have hall := outcome_induct (r := r)
    (I := fun _ done _ => ∀ a ∈ done, Action.isProposal a = false) batch [] []
    (fun _ _ _ _ _ _ h _ => h) (fun _ _ _ _ h => h)
    (fun _ _ _ _ _ h hact' a ha => (List.mem_append.mp ha).elim (h a) (hact hact' a)) hproper
    (by simp) (fun _ => by simp)
  rw [List.countP_eq_zero]
  exact fun a ha => by simp [hall a (by simpa using ha)]

end Replica

theorem readFrom_snoc_isPrefix {u w : ValidatorId} {m : Message}
    {read : List (ValidatorId × Message)} {flow : List Message} (hold : readFrom w read <+: flow)
    (hnext : w = u → readFrom w read ++ [m] <+: flow) : readFrom w (read ++ [(u, m)]) <+: flow := by
  rw [readFrom_append]
  by_cases hwu : w = u
  · simpa [readFrom, hwu] using hnext hwu
  · simpa [readFrom, Ne.symm hwu] using hold

namespace Exchange

-- Room for messages that were not taken yet, where nobody gets more than so many from another.
def room (A : Finset ValidatorId) (bound : Nat) (x : Exchange) : Nat :=
  ∑ e ∈ A ×ˢ A, (bound - (readFrom e.1 (x.read e.2)).length)

theorem room_handle_lt {A : Finset ValidatorId} {bound : Nat} {x : Exchange} {u v : ValidatorId}
    {m : Message} (hu : u ∈ A) (hv : v ∈ A)
    (hbound : (readFrom u (x.read v ++ [(u, m)])).length ≤ bound) :
    (x.handle v [(u, m)]).room A bound < x.room A bound := by
  have hmore : ∀ u' v', (readFrom u' (x.read v')).length ≤
      (readFrom u' ((x.handle v [(u, m)]).read v')).length := by
    intro u' v'
    by_cases hv' : v' = v
    · rw [hv', read_handle_self, readFrom_append, List.length_append]
      exact Nat.le_add_right _ _
    · rw [x.read_handle_of_ne _ hv']
  refine Finset.sum_lt_sum (fun e _ => Nat.sub_le_sub_left (hmore e.1 e.2) _)
    ⟨(u, v), Finset.mk_mem_product hu hv, ?_⟩
  have hself : (readFrom u (x.read v ++ [(u, m)])).length = (readFrom u (x.read v)).length + 1 := by
    simp [readFrom]
  rw [hself] at hbound
  dsimp only
  rw [read_handle_self, hself]
  omega

-- The messages that some members still have to take from each other get fewer with every one that
-- is taken, as long as there is a bound on what goes from one to another.
theorem exists_taken {I : Exchange → Prop} {A : Finset ValidatorId} {bound : Nat}
    {F : Exchange → ValidatorId → ValidatorId → List Message}
    (horder : ∀ x, I x → ∀ u ∈ A, ∀ v ∈ A, readFrom u (x.read v) <+: F x u v)
    (hbound : ∀ x, I x → ∀ u ∈ A, ∀ v ∈ A, (F x u v).length ≤ bound)
    (htake : ∀ x u v m, I x → u ∈ A → v ∈ A → readFrom u (x.read v) ++ [m] <+: F x u v →
      I (x.handle v [(u, m)]))
    {x : Exchange} (hx : I x) :
    ∃ y, I y ∧ ∀ u ∈ A, ∀ v ∈ A, readFrom u (y.read v) = F y u v := by
  induction hroom : x.room A bound using Nat.strong_induction_on generalizing x with
  | _ n ih =>
      by_cases hall : ∀ u ∈ A, ∀ v ∈ A, readFrom u (x.read v) = F x u v
      · exact ⟨x, hx, hall⟩
      · push Not at hall
        obtain ⟨u, hu, v, hv, hne⟩ := hall
        obtain ⟨rest, hrest⟩ := horder x hx u hu v hv
        cases rest with
        | nil => exact absurd (by simpa using hrest) hne
        | cons m rest =>
            have hnext := htake x u v m hx hu hv ⟨rest, by simpa using hrest⟩
            have hlength := (horder _ hnext u hu v hv).length_le.trans (hbound _ hnext u hu v hv)
            rw [read_handle_self] at hlength
            exact ih _ (hroom ▸ room_handle_lt hu hv hlength) hnext rfl

end Exchange

namespace Meeting

variable {M : Meeting} {x : Exchange}

-- What bounds the messages of a member.
structure Bounded (M : Meeting) (x : Exchange) (v : ValidatorId) : Prop where
  terse : (x.sessions v).replica.Terse M.block.id ((x.sessions v).done.countP Action.isProposal)
    (x.sessions v).counted (x.sessions v).done
  counted : (x.sessions v).counted.Sublist ((x.read v).map (·.2))
  proposals : (x.sessions v).done.countP Action.isProposal ≤
    if v = M.leader ∧ x.proposed then 1 else 0

theorem bounded_start (v : ValidatorId) : M.Bounded M.start v where
  terse := by simp [start, Session.start, Replica.Terse, Replica.startRun, Tally.start]
  counted := by simp [start, Session.start]
  proposals := by simp [start, Session.start]

theorem Bounded.batch {v : ValidatorId} (h : M.Bounded x v) (hm : M.Member v (x.sessions v))
    {picks : List (ValidatorId × Message)} (hcontent : ∀ e ∈ picks, M.Says e.2.block) :
    M.Bounded (x.handle v picks) v := by
  have hself := x.sessions_handle_self (v := v) picks
  have hread := x.read_handle_self (v := v) picks
  have hbatch : ∀ m ∈ picks.map (·.2), m.blockId = M.block.id := by
    intro m hm
    obtain ⟨e, he, rfl⟩ := List.mem_map.mp hm
    exact Block.Agrees.id (hcontent e he)
  cases hrole : (x.sessions v).replica.role.participates with
  | false =>
      rw [Session.answer_batch_of_crash hrole] at hself
      refine ⟨hself ▸ h.terse, ?_, hself ▸ h.proposals⟩
      rw [hself, hread, List.map_append]
      exact h.counted.trans (List.sublist_append_left _ _)
  | true =>
      rw [Session.answer_batch_of_participates hm.stores.proper hrole] at hself
      have hterse := h.terse.outcome (hm.stores.mono fun _ hb => Block.Agrees.id hb) hbatch
      have hsend := Role.countP_shape_le Action.isSend_relabel Action.isSend_toLeaderOnly
        (x.sessions v).replica.role (x.sessions v).replica.id (x.sessions v).replica.committee
        ((x.sessions v).replica.outcome (picks.map (·.2))).1
      have hproposal := Role.countP_shape_le Action.isProposal_relabel
        Action.isProposal_toLeaderOnly (x.sessions v).replica.role (x.sessions v).replica.id
        (x.sessions v).replica.committee ((x.sessions v).replica.outcome (picks.map (·.2))).1
      rw [Replica.countP_isProposal_outcome hm.stores.proper] at hproposal
      refine ⟨?_, ?_, ?_⟩
      · rw [hself]
        unfold Replica.Terse at hterse ⊢
        simp only [List.countP_append] at hterse ⊢
        omega
      · rw [hself, hread, List.map_append]
        exact h.counted.append (Replica.counted_sublist _ _)
      · rw [hself, List.countP_append, Nat.le_zero.mp hproposal]
        exact h.proposals

theorem Bounded.propose (h : M.Bounded x M.leader) (hfirst : x.proposed = false)
    (hsupplied : (x.sessions M.leader).replica.signer.Supplied)
    (hrole : (x.sessions M.leader).replica.role = (M.seats M.leader).role) :
    M.Bounded (M.propose x) M.leader := by
  have hself : (M.propose x).sessions M.leader =
      (x.sessions M.leader).answer (.propose M.block) := x.sessions.call_self M.leader _
  obtain ⟨m, signer, -, hanswer, hvotes, -⟩ := Replica.propose_of_supplied hsupplied
    (hrole ▸ M.leader_proposes) M.block
  have hkind := hvotes.kind
  have heq : (x.sessions M.leader).answer (.propose M.block) =
      ⟨{ (x.sessions M.leader).replica with signer }, (x.sessions M.leader).counted,
        (x.sessions M.leader).done ++ [.broadcast m]⟩ := by
    rw [Session.answer_propose, hanswer]
  have hproposals := h.proposals
  have hterse := h.terse
  rw [heq] at hself
  refine ⟨?_, hself ▸ h.counted, ?_⟩
  · rw [hself]
    unfold Replica.Terse at hterse ⊢
    simp only [List.countP_append, List.countP_singleton, Action.isSend, Action.isProposal,
      Action.message?, Option.isSome_some, Option.any_some, hkind, decide_true, if_true] at hterse ⊢
    omega
  · rw [hself]
    simp only [hfirst, Bool.false_eq_true, and_false, if_false] at hproposals
    simp [Meeting.propose, List.countP_append, Nat.le_zero.mp hproposals, Action.isProposal,
      Action.message?, hkind]

theorem bounded_propose (h : ∀ w ∈ M.members, M.Bounded x w) (hfirst : x.proposed = false)
    (hsupplied : (x.sessions M.leader).replica.signer.Supplied)
    (hrole : (x.sessions M.leader).replica.role = (M.seats M.leader).role) :
    ∀ w ∈ M.members, M.Bounded (M.propose x) w := by
  intro w hw
  by_cases hwl : w = M.leader
  · subst hwl
    exact (h _ hw).propose hfirst hsupplied hrole
  · have hsame : (M.propose x).sessions w = x.sessions w := x.sessions.call_of_ne hwl _
    have hold := h w hw
    refine ⟨hsame ▸ hold.terse, hsame ▸ hold.counted, ?_⟩
    rw [hsame]
    simpa [hwl] using hold.proposals

theorem bounded_handle (h : ∀ w ∈ M.members, M.Bounded x w) {v : ValidatorId}
    (hm : M.Member v (x.sessions v)) {picks : List (ValidatorId × Message)}
    (hcontent : ∀ e ∈ picks, M.Says e.2.block) :
    ∀ w ∈ M.members, M.Bounded (x.handle v picks) w := by
  intro w hw
  by_cases hwv : w = v
  · subst hwv
    exact (h _ hw).batch hm hcontent
  · have hsame := x.sessions_handle_of_ne picks hwv
    have hread := x.read_handle_of_ne picks hwv
    have hold := h w hw
    exact ⟨hsame ▸ hold.terse, by rw [hsame, hread]; exact hold.counted, hsame ▸ hold.proposals⟩

theorem bounded_of_reachable (hx : M.Reachable x) : ∀ v ∈ M.members, M.Bounded x v := by
  induction hx with
  | start => exact fun v _ => bounded_start v
  | propose before first ih =>
      have hleader := (sound_of_reachable before).faithful _ M.leader_honest
      exact bounded_propose ih first hleader.prompt.supplied hleader.role
  | handle before member sources inOrder ih =>
      have hsound := sound_of_reachable before
      refine bounded_handle ih (hsound.member _ member) fun e he => ?_
      have hsource := sources e he
      exact (hsound.says_of_mem_inbound hsource ((inOrder _ hsource).subset
        (mem_readFrom.mpr (List.mem_append_right _ he)))).1

-- Nobody but the leader sends a SEND, and the leader sends one.
theorem Bounded.countP_send_inbound_le {u : ValidatorId} (h : M.Bounded x u) (v : ValidatorId) :
    (M.inbound x u v).countP (fun m => m.kind = .send) ≤
      if u = M.leader ∧ x.proposed then 1 else 0 :=
  (countP_toward_le M.leader v _ _).trans h.proposals

-- The SENDs that count are among those that were read of the leader.
theorem Bounded.countP_send_le {v : ValidatorId} (h : M.Bounded x v)
    (hothers : ∀ u ≠ M.leader, ∀ m ∈ readFrom u (x.read v), m.kind ≠ .send) :
    (x.sessions v).counted.countP (fun m => m.kind = .send) ≤
      (readFrom M.leader (x.read v)).countP fun m => m.kind = .send := by
  have hfrom : ∀ e ∈ x.read v, e.2.kind = .send → e.1 = M.leader := fun e he hkind => by
    by_contra hne
    exact hothers e.1 hne e.2 (mem_readFrom.mpr he) hkind
  refine h.counted.countP_le.trans (Nat.le_of_eq ?_)
  rw [readFrom, List.countP_map, List.countP_map, List.countP_filter]
  exact List.countP_congr fun e he => by simpa using hfrom e he

-- An ECHO for each SEND, a READY and a proposal.
theorem Bounded.length_inbound_le {u : ValidatorId} (h : M.Bounded x u) (v : ValidatorId) :
    (M.inbound x u v).length ≤
      (x.sessions u).counted.countP (fun m => m.kind = .send) + 2 := by
  have hproposals : (x.sessions u).done.countP Action.isProposal ≤ 1 :=
    h.proposals.trans (by split <;> decide)
  have hmarks := Tally.marks_le_one (x.sessions u).replica.tally M.block.id
  have hterse := h.terse
  have hlength := countP_toward_le M.leader v (fun _ => true) (x.sessions u).done
  have hall : (x.sessions u).done.countP (fun a => a.message?.any fun _ => true) =
      (x.sessions u).done.countP Action.isSend := by
    refine List.countP_congr fun a _ => ?_
    cases a <;> simp [Action.isSend, Action.message?]
  rw [hall, List.countP_true] at hlength
  unfold Replica.Terse at hterse
  exact hlength.trans (by omega)

-- A member counts the one SEND at most once.
theorem countP_send_le_one (hx : M.Reachable x) {v : ValidatorId} (hv : v ∈ M.members) :
    (x.sessions v).counted.countP (fun m => m.kind = .send) ≤ 1 := by
  have hsound := sound_of_reachable hx
  have hbounded := bounded_of_reachable hx
  have hleader := mem_members M.leader_honest
  have hothers : ∀ u ≠ M.leader, ∀ m ∈ readFrom u (x.read v), m.kind ≠ .send := by
    intro u hne m hm hkind
    have hu := hsound.sources v hv _ (mem_readFrom.mp hm)
    have hnone := (hbounded u hu).countP_send_inbound_le v
    rw [if_neg fun h => hne h.1, Nat.le_zero, List.countP_eq_zero] at hnone
    exact hnone m ((hsound.inOrder v hv u hu).subset hm) (decide_eq_true hkind)
  calc (x.sessions v).counted.countP (fun m => m.kind = .send)
      ≤ (readFrom M.leader (x.read v)).countP fun m => m.kind = .send :=
        (hbounded v hv).countP_send_le hothers
    _ ≤ (M.inbound x M.leader v).countP fun m => m.kind = .send :=
        (hsound.inOrder v hv _ hleader).sublist.countP_le
    _ ≤ 1 := ((hbounded _ hleader).countP_send_inbound_le v).trans (by split <;> decide)

theorem length_inbound_le (hx : M.Reachable x) {u : ValidatorId} (hu : u ∈ M.members)
    (v : ValidatorId) : (M.inbound x u v).length ≤ 3 := by
  have hlength := (bounded_of_reachable hx u hu).length_inbound_le v
  have hsends := countP_send_le_one hx hu
  omega

-- One more message from the network, in order.
theorem Reachable.take (hx : M.Reachable x) {u v : ValidatorId} (hu : u ∈ M.members)
    (hv : v ∈ M.members) {m : Message} (hnext : readFrom u (x.read v) ++ [m] <+: M.inbound x u v) :
    M.Reachable (x.handle v [(u, m)]) :=
  .handle hx hv (by simpa using hu) fun w hw =>
    readFrom_snoc_isPrefix ((sound_of_reachable hx).inOrder v hv w hw) fun hwu => hwu ▸ hnext

-- Taking messages from the network one by one comes to an end.
theorem exists_quiet (hx : M.Reachable x) :
    ∃ y, M.Reachable y ∧ M.Quiet y ∧ y.proposed = x.proposed ∧
      ∀ v, (x.sessions v).Extends (y.sessions v) := by
  obtain ⟨y, ⟨hreach, hproposed, hext⟩, hquiet⟩ := Exchange.exists_taken
    (I := fun y => M.Reachable y ∧ y.proposed = x.proposed ∧
      ∀ v, (x.sessions v).Extends (y.sessions v))
    (fun y hy u hu v hv => (sound_of_reachable hy.1).inOrder v hv u hu)
    (fun y hy u hu v _ => length_inbound_le hy.1 hu v)
    (fun y u v m hy hu hv hnext => ⟨hy.1.take hu hv hnext, hy.2.1, fun w =>
      (hy.2.2 w).trans (y.sessions.extends_call v rfl w)⟩)
    ⟨hx, rfl, fun _ => .rfl⟩
  exact ⟨y, hreach, hquiet, hproposed, hext⟩

end Meeting

end QuorumLedger
