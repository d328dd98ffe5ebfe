import QuorumLedger.Proofs.Consensus.Convergence
import QuorumLedger.Proofs.Consensus.Succession

namespace QuorumLedger

namespace Replica

-- What was delivered in the run is not voted on in later ones.
def Remembers (done : List Action) (r : Replica) : Prop :=
  ∀ d height, .delivered d height ∈ done → d ∈ r.finalized

theorem Remembers.act {done : List Action} {r r' : Replica} {actions : List Action}
    (h : r.Remembers done) (hact : Act r actions r') : r'.Remembers (done ++ actions) := by
  intro d' height hd
  rw [List.mem_append] at hd
  cases hact with
  | @echo d active pending =>
      obtain ⟨signer, hnext⟩ := vote_snd { r with tally := r.tally.clearSend } .echo d Round.echo
      rw [hnext]
      refine hd.elim (h d' height) fun hd => ?_
      obtain ⟨m, b, heq, -⟩ := mem_vote hd
      cases heq
  | @ready d round tally active mark call =>
      obtain ⟨signer, hnext⟩ := vote_snd { r with tally } .ready d round
      rw [hnext]
      refine hd.elim (h d' height) fun hd => ?_
      obtain ⟨m, b, heq, -⟩ := mem_vote hd
      cases heq
  | @deliver d active declared enough =>
      rcases hd with hd | hd
      · exact List.mem_cons_of_mem d (h d' height hd)
      · cases List.mem_singleton.mp hd
        exact List.mem_cons_self

theorem Remembers.answer {done : List Action} {r : Replica} (h : r.Remembers done)
    (hproper : r.tally.Proper) (hhonest : r.role.IsHonest) {c : Call} (hc : c.isStart = false) :
    (r.answer c).2.Remembers (done ++ (r.answer c).1) := by
  cases c with
  | startRun view => cases hc
  | takeDelivered =>
      change r.takeDelivered.2.Remembers (done ++ [])
      rw [List.append_nil]
      exact h
  | propose b =>
      obtain ⟨signer, hnext⟩ := r.propose_snd b
      intro d height hd
      rw [hnext]
      refine (List.mem_append.mp hd).elim (h d height) fun hd => ?_
      obtain ⟨-, m, heq, -⟩ := mem_propose hd
      cases heq
  | batch messages =>
      rw [answer_batch hproper, if_pos hhonest.participates, hhonest.shape]
      exact (outcome_induct (I := fun _ done r => r.Remembers done) messages [] done
        (fun _ _ _ _ _ _ h _ => h) (fun _ _ _ _ h => h) (fun _ _ _ _ _ h hact => h.act hact)
        hproper h fun _ => h)

end Replica

namespace Meeting

section Model

variable (M : Meeting)

-- A new run on every validator, on the same ledger.
def restart (x : Exchange) : Exchange :=
  ⟨fun v => (x.sessions v).answer (.startRun M.view), fun _ => [], false⟩

-- What one validator sent to another in a run that was cut off, and the other did not take there.
def backlog (x : Exchange) (u v : ValidatorId) : List Message :=
  (M.inbound x u v).drop (readFrom u (x.read v)).length

-- All that goes from one validator to another in the second run, in order.
def onward (x y : Exchange) (u v : ValidatorId) : List Message :=
  M.backlog x u v ++ M.inbound y u v

-- The states of a second run, with what was read and done in that run. What was on its way at the cut
-- is still delivered, ahead of what is sent now.
inductive Resumed (x : Exchange) : Exchange → Prop
  | restart : Resumed x (M.restart x)
  | propose {y : Exchange} (before : Resumed x y) (first : y.proposed = false) :
      Resumed x (M.propose y)
  | handle {y : Exchange} {v : ValidatorId} {picks : List (ValidatorId × Message)}
      (before : Resumed x y) (member : v ∈ M.members) (sources : ∀ e ∈ picks, e.1 ∈ M.members)
      (inOrder : ∀ u ∈ M.members, readFrom u (y.read v ++ picks) <+: M.onward x y u v) :
      Resumed x (y.handle v picks)

-- Nothing that was sent in either run is left to be taken.
def Drained (x y : Exchange) : Prop :=
  ∀ u ∈ M.members, ∀ v ∈ M.members, readFrom u (y.read v) = M.onward x y u v

-- What holds of a member in the second run. Whether it still counts messages depends on whether the
-- block was delivered in the first run.
structure Continues (x : Exchange) (v : ValidatorId) (s : Session)
    (read : List (ValidatorId × Message)) : Prop where
  member : M.Member v s
  diligent : s.Diligent
  role : s.replica.role = (M.seats v).role
  view : s.replica.view = M.view
  thresholds : s.replica.thresholds = M.thresholds
  linked : Linked v (x.sessions v).replica.signer.next.publicKey s.done
    s.replica.signer.next.publicKey
  keyChain : s.replica.keyChain =
    (∅ : KeyChain ValidatorId).follow ((x.read v ++ read).map (·.2))
  finalized : s.replica.isDelivered = false → s.replica.finalized = (x.sessions v).replica.finalized
  counted : M.block.id ∉ (x.sessions v).replica.finalized → s.replica.isDelivered = false →
    s.counted = read.map (·.2)
  silent : M.block.id ∈ (x.sessions v).replica.finalized → s.counted = []

structure Again (x y : Exchange) : Prop where
  continues : ∀ v ∈ M.members, M.Continues x v (y.sessions v) (y.read v)
  sources : ∀ v ∈ M.members, ∀ e ∈ y.read v, e.1 ∈ M.members
  inOrder : ∀ v ∈ M.members, ∀ u ∈ M.members, readFrom u (y.read v) <+: M.onward x y u v
  proposal : y.proposed = true → (y.sessions M.leader).Sent .send M.block.id

end Model

variable {M : Meeting} {x y : Exchange}

theorem mem_honest (hclean : M.faulty = ∅) {v : ValidatorId} (hv : v ∈ M.members) :
    v ∈ M.honest := by
  simpa [Roster.honest, hclean] using hv

theorem remembers_of_reachable (hx : M.Reachable x) :
    ∀ v ∈ M.honest, (x.sessions v).replica.Remembers (x.sessions v).done := by
  have hcall : ∀ {x : Exchange} {w : ValidatorId} {c : Replica.Call}, M.Sound x →
      c.isStart = false →
      (∀ v ∈ M.honest, (x.sessions v).replica.Remembers (x.sessions v).done) →
      ∀ v ∈ M.honest,
        (x.sessions.call w c v).replica.Remembers (x.sessions.call w c v).done := by
    intro x w c hx hc ih
    refine Assembly.forall_call (I := fun _ s => s.replica.Remembers s.done) ih fun hw => ?_
    rw [Session.answer_eq _ hc]
    exact (ih w hw).answer (hx.member w (mem_members hw)).stores.proper
      (hx.faithful w hw).grounded.honest hc
  induction hx with
  | start => exact fun v _ d height hd => absurd hd List.not_mem_nil
  | propose before first ih => exact hcall (sound_of_reachable before) rfl ih
  | handle before member sources inOrder ih => exact hcall (sound_of_reachable before) rfl ih

-- What was read and what was left of a validator's messages are all that it sent.
theorem readFrom_append_onward (h : M.Sound x) {u v : ValidatorId} (hu : u ∈ M.members)
    (hv : v ∈ M.members) :
    readFrom u (x.read v) ++ M.onward x y u v = M.inbound x u v ++ M.inbound y u v := by
  have hread := List.prefix_iff_eq_append.mp (h.inOrder v hv u hu)
  rw [onward, ← List.append_assoc, backlog, hread]

theorem onward_isPrefix_of_extends {y' : Exchange} {u : ValidatorId}
    (h : (y.sessions u).Extends (y'.sessions u)) (v : ValidatorId) :
    M.onward x y u v <+: M.onward x y' u v :=
  (List.prefix_append_right_inj _).mpr (inbound_isPrefix_of_extends h v)

namespace Continues

variable {v : ValidatorId} {s : Session} {read : List (ValidatorId × Message)}

theorem restart (h : M.Sound x) (hv : v ∈ M.honest) :
    M.Continues x v ((M.restart x).sessions v) [] := by
  have hmember := h.member v (mem_members hv)
  have hfaithful := h.faithful v hv
  constructor
  · exact ⟨hmember.id, hmember.stores.startRun M.view, by simp [Meeting.restart, Session.answer,
      Session.start], by simp [Meeting.restart, Session.answer, Session.start],
      by simp [Meeting.restart, Session.answer, Session.start, Replica.Sparing]⟩
  · exact ⟨⟨.start (hmember.stores.mono fun _ _ => trivial) M.view,
      hfaithful.role ▸ M.isHonest v hv⟩, ⟨_, .start _ hfaithful.prompt.supplied M.view⟩,
      fun _ => Replica.settled_startRun _ _⟩
  · exact hfaithful.role
  · rfl
  · exact hfaithful.thresholds
  · exact .nil
  · rw [List.append_nil]
    exact (h.reads v hv).keyChain
  · exact fun _ => rfl
  · exact fun _ _ => rfl
  · exact fun _ => rfl

theorem supplied (h : M.Continues x v s read) : s.replica.signer.Supplied := by
  obtain ⟨first, hprompt⟩ := h.diligent.prompt
  exact hprompt.supplied

theorem linked_answer (h : M.Continues x v s read) {c : Replica.Call} (hc : c.isStart = false) :
    Linked v (x.sessions v).replica.signer.next.publicKey (s.answer c).done
      (s.answer c).replica.signer.next.publicKey := by
  rw [s.answer_eq hc]
  exact h.linked.append (h.member.id ▸
    Replica.linked_answer h.member.stores.proper h.diligent.grounded.honest c)

theorem propose (h : M.Continues x v s read) (hrole : (M.seats v).role.isProposer = true) :
    M.Continues x v (s.answer (.propose M.block)) read ∧
      (s.answer (.propose M.block)).Sent .send M.block.id := by
  obtain ⟨hdiligent, hsent⟩ := h.diligent.propose (h.role ▸ hrole) M.block
  have hsame := h.diligent.sameSetup_answer (c := .propose M.block) rfl
  obtain ⟨signer, hnext⟩ := s.replica.propose_snd M.block
  have hreplica : (s.answer (.propose M.block)).replica = { s.replica with signer } := hnext
  have hcounted : (s.answer (.propose M.block)).counted = s.counted := List.append_nil _
  refine ⟨⟨h.member.answer rfl fun _ => .rfl, hdiligent, hsame.role.trans h.role,
    hsame.view.trans h.view, hsame.thresholds.trans h.thresholds, h.linked_answer rfl, ?_, ?_, ?_,
    ?_⟩, hsent⟩
  · rw [hreplica]
    exact h.keyChain
  · rw [hreplica]
    exact h.finalized
  · rw [hreplica, hcounted]
    exact h.counted
  · rw [hcounted]
    exact h.silent

theorem batch (h : M.Continues x v s read) {picks : List (ValidatorId × Message)}
    (hsigner : ∀ e ∈ x.read v ++ read ++ picks, e.2.signer? = some e.1)
    (hcontent : ∀ e ∈ picks, M.Says e.2.block)
    (horder : ∀ e ∈ picks, ∃ first sent last,
      Chained e.1 first sent last ∧ readFrom e.1 (x.read v ++ read ++ picks) <+: sent) :
    M.Continues x v (s.answer (.batch (picks.map (·.2)))) (read ++ picks) := by
  have hsame := h.diligent.sameSetup_answer (c := .batch (picks.map (·.2))) rfl
  have hbatch : ∀ m ∈ picks.map (·.2), M.Says m.block := List.forall_mem_map.mpr hcontent
  refine ⟨h.member.answer rfl hbatch, h.diligent.batch _, hsame.role.trans h.role,
    hsame.view.trans h.view, hsame.thresholds.trans h.thresholds, h.linked_answer rfl, ?_, ?_, ?_,
    ?_⟩
  · rw [h.diligent.keyChain_batch, h.keyChain, ← KeyChain.follow_append, ← List.map_append,
      List.append_assoc]
  · exact fun hend => (h.diligent.finalized_batch hend).trans
      (h.finalized (h.diligent.isDelivered_of_batch hend))
  · intro hnew hend
    have hactive := h.diligent.isDelivered_of_batch hend
    rw [h.diligent.counted_batch, h.counted hnew hactive, counted_of_chained h.keyChain
      (h.finalized hactive ▸ hnew) h.view hsigner hcontent horder, List.map_append]
  · intro hold
    have hnone := h.silent hold
    have hactive := h.diligent.isDelivered_eq_false (by simp [hnone])
    rw [h.diligent.counted_batch, hnone, List.nil_append]
    refine Replica.counted_eq_nil fun m hm => ?_
    have hid : m.blockId = M.block.id := Block.Agrees.id (hbatch m hm)
    rwa [hid, h.finalized hactive]

end Continues

namespace Again

theorem restart (hclean : M.faulty = ∅) (h : M.Sound x) : M.Again x (M.restart x) where
  continues := fun _ hv => .restart h (mem_honest hclean hv)
  sources := by simp [Meeting.restart]
  inOrder := fun _ _ _ _ => List.nil_prefix
  proposal := by simp [Meeting.restart]

theorem says_of_mem_onward (h : M.Again x y) (hx : M.Sound x) {u v : ValidatorId}
    (hu : u ∈ M.members) {m : Message} (hm : m ∈ M.onward x y u v) :
    M.Says m.block ∧ m.signer? = some u := by
  rcases List.mem_append.mp hm with hm | hm
  · exact hx.says_of_mem_inbound hu (List.mem_of_mem_drop hm)
  · exact (h.continues u hu).member.says_of_mem_inbound hm

-- An honest member's messages of both runs make one chain.
theorem chained (h : M.Again x y) (hclean : M.faulty = ∅) (hx : M.Sound x) {u : ValidatorId}
    (hu : u ∈ M.members) (v : ValidatorId) :
    ∃ first last, Chained u first (M.inbound x u v ++ M.inbound y u v) last := by
  have hfaithful := hx.faithful u (mem_honest hclean hu)
  have hlinked := (h.continues u hu).linked
  have hbefore := hfaithful.prompt.chained
  rw [(hx.member u hu).id] at hbefore
  rw [hfaithful.inbound_eq, inbound_eq_messagesOf hlinked.toAll]
  exact ⟨_, _, chained_append.mpr ⟨_, hbefore, hlinked.chained⟩⟩

theorem propose (h : M.Again x y) : M.Again x (M.propose y) := by
  have hext : ∀ u, (y.sessions u).Extends ((M.propose y).sessions u) :=
    y.sessions.extends_call M.leader rfl
  have hleader := (h.continues _ (mem_members M.leader_honest)).propose M.leader_proposes
  refine ⟨?_, h.sources, fun v hv u hu => (h.inOrder v hv u hu).trans
    (onward_isPrefix_of_extends (hext u) v), fun _ => ?_⟩
  · exact Assembly.forall_call (I := fun w s => M.Continues x w s (y.read w)) h.continues
      fun _ => hleader.1
  · change (y.sessions.call M.leader _ M.leader).Sent _ _
    rw [Assembly.call_self]
    exact hleader.2

theorem handle (h : M.Again x y) (hclean : M.faulty = ∅) (hx : M.Sound x) {v : ValidatorId}
    {picks : List (ValidatorId × Message)} (hv : v ∈ M.members)
    (hsources : ∀ e ∈ picks, e.1 ∈ M.members)
    (horder : ∀ u ∈ M.members, readFrom u (y.read v ++ picks) <+: M.onward x y u v) :
    M.Again x (y.handle v picks) := by
  have hext : ∀ u, (y.sessions u).Extends ((y.handle v picks).sessions u) :=
    y.sessions.extends_call v rfl
  have hread := y.read_handle_self (v := v) picks
  have hall : ∀ e ∈ y.read v ++ picks, e.1 ∈ M.members := fun e he =>
    (List.mem_append.mp he).elim (h.sources v hv e) (hsources e)
  have hcontent : ∀ e ∈ y.read v ++ picks, M.Says e.2.block ∧ e.2.signer? = some e.1 := fun e he =>
    h.says_of_mem_onward hx (hall e he) ((horder e.1 (hall e he)).subset (mem_readFrom.mpr he))
  refine ⟨fun w hw => ?_, fun w hw => ?_, fun w hw u hu => ?_, fun hproposed => ?_⟩
  · by_cases hwv : w = v
    · subst hwv
      rw [y.sessions_handle_self, hread]
      refine (h.continues w hw).batch (fun e he => ?_)
        (fun e he => (hcontent e (List.mem_append_right _ he)).1) fun e he => ?_
      · rw [List.append_assoc] at he
        exact (List.mem_append.mp he).elim (hx.signer_of_mem_read hw e) fun he => (hcontent e he).2
      · have hu := hsources e he
        obtain ⟨first, last, hchained⟩ := h.chained hclean hx hu w
        refine ⟨first, _, last, hchained, ?_⟩
        rw [List.append_assoc, readFrom_append, ← readFrom_append_onward hx hu hw]
        exact (List.prefix_append_right_inj _).mpr (horder e.1 hu)
    · rw [y.sessions_handle_of_ne picks hwv, y.read_handle_of_ne picks hwv]
      exact h.continues w hw
  · by_cases hwv : w = v
    · subst hwv
      exact hread ▸ hall
    · exact y.read_handle_of_ne picks hwv ▸ h.sources w hw
  · refine List.IsPrefix.trans ?_ (onward_isPrefix_of_extends (hext u) w)
    by_cases hwv : w = v
    · subst hwv
      exact hread ▸ horder u hu
    · exact y.read_handle_of_ne picks hwv ▸ h.inOrder w hw u hu
  · exact (hext M.leader).sent (h.proposal hproposed)

end Again

theorem again_of_resumed (hclean : M.faulty = ∅) (hx : M.Sound x) (h : M.Resumed x y) :
    M.Again x y := by
  induction h with
  | restart => exact .restart hclean hx
  | propose before first ih => exact ih.propose
  | handle before member sources inOrder ih => exact ih.handle hclean hx member sources inOrder

theorem bounded_of_resumed (hclean : M.faulty = ∅) (hx : M.Sound x) (h : M.Resumed x y) :
    ∀ v ∈ M.members, M.Bounded y v := by
  induction h with
  | restart =>
      exact fun v _ => ⟨by simp [Meeting.restart, Session.answer, Session.start, Replica.Terse,
          Replica.startRun, Tally.start],
        by simp [Meeting.restart, Session.answer, Session.start],
        by simp [Meeting.restart, Session.answer, Session.start]⟩
  | propose before first ih =>
      have hagain := again_of_resumed hclean hx before
      have hleader := hagain.continues _ (mem_members M.leader_honest)
      exact bounded_propose ih first hleader.supplied hleader.role
  | handle before member sources inOrder ih =>
      have hagain := again_of_resumed hclean hx before
      refine bounded_handle ih (hagain.continues _ member).member fun e he => ?_
      have hsource := sources e he
      exact (hagain.says_of_mem_onward hx hsource ((inOrder _ hsource).subset
        (mem_readFrom.mpr (List.mem_append_right _ he)))).1

-- The leader's SEND of either run may be on its way.
theorem countP_send_onward_le {u : ValidatorId} (hx : M.Bounded x u) (hy : M.Bounded y u)
    (v : ValidatorId) :
    (M.onward x y u v).countP (fun m => m.kind = .send) ≤ if u = M.leader then 2 else 0 := by
  have hbefore := hx.countP_send_inbound_le v
  have hnow := hy.countP_send_inbound_le v
  have hbacklog : (M.backlog x u v).countP (fun m => m.kind = .send) ≤
      (M.inbound x u v).countP fun m => m.kind = .send := (List.drop_sublist _ _).countP_le
  rw [onward, List.countP_append]
  by_cases hu : u = M.leader
  · rw [if_pos hu]
    split at hbefore <;> split at hnow <;> omega
  · rw [if_neg fun h => hu h.1] at hbefore hnow
    rw [if_neg hu]
    omega

theorem length_onward_le (hclean : M.faulty = ∅) (hx : M.Reachable x) (h : M.Resumed x y)
    {u : ValidatorId} (hu : u ∈ M.members) (v : ValidatorId) : (M.onward x y u v).length ≤ 7 := by
  have hagain := again_of_resumed hclean (sound_of_reachable hx) h
  have hbefore := bounded_of_reachable hx
  have hnow := bounded_of_resumed hclean (sound_of_reachable hx) h
  have hleader := mem_members M.leader_honest
  have hothers : ∀ w ≠ M.leader, ∀ m ∈ readFrom w (y.read u), m.kind ≠ .send := by
    intro w hne m hm hkind
    have hw := hagain.sources u hu _ (mem_readFrom.mp hm)
    have hnone := countP_send_onward_le (hbefore w hw) (hnow w hw) u
    rw [if_neg hne, Nat.le_zero, List.countP_eq_zero] at hnone
    exact hnone m ((hagain.inOrder u hu w hw).subset hm) (decide_eq_true hkind)
  have hsends : (y.sessions u).counted.countP (fun m => m.kind = .send) ≤ 2 :=
    calc (y.sessions u).counted.countP (fun m => m.kind = .send)
        ≤ (readFrom M.leader (y.read u)).countP fun m => m.kind = .send :=
          (hnow u hu).countP_send_le hothers
      _ ≤ (M.onward x y M.leader u).countP fun m => m.kind = .send :=
          (hagain.inOrder u hu _ hleader).sublist.countP_le
      _ ≤ 2 := (countP_send_onward_le (hbefore _ hleader) (hnow _ hleader) u).trans
          (by split <;> decide)
  have hbacklog : (M.backlog x u v).length ≤ (M.inbound x u v).length :=
    (List.drop_sublist _ _).length_le
  have hfirst := length_inbound_le hx hu v
  have hsecond := (hnow u hu).length_inbound_le v
  rw [onward, List.length_append]
  omega

-- The network of the second run empties as well.
theorem exists_drained (hclean : M.faulty = ∅) (hx : M.Reachable x) (h : M.Resumed x y) :
    ∃ z, M.Resumed x z ∧ M.Drained x z ∧ z.proposed = y.proposed := by
  obtain ⟨z, ⟨hz, hproposed⟩, hdrained⟩ := Exchange.exists_taken
    (I := fun z => M.Resumed x z ∧ z.proposed = y.proposed) (F := M.onward x)
    (fun z hz u hu v hv =>
      (again_of_resumed hclean (sound_of_reachable hx) hz.1).inOrder v hv u hu)
    (fun z hz u hu v _ => length_onward_le hclean hx hz.1 hu v)
    (fun z u v m hz hu hv hnext => by
      have hagain := again_of_resumed hclean (sound_of_reachable hx) hz.1
      exact ⟨.handle hz.1 hv (by simpa using hu) fun w hw =>
        readFrom_snoc_isPrefix (hagain.inOrder v hv w hw) fun hwu => hwu ▸ hnext, hz.2⟩)
    ⟨h, rfl⟩
  exact ⟨z, hz, hdrained, hproposed⟩

end Meeting

end QuorumLedger
