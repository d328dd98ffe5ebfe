import QuorumLedger.Proofs.Consensus.Prompt
import QuorumLedger.Proofs.Consensus.Quorum
import QuorumLedger.Proofs.Consensus.Sending

namespace QuorumLedger

-- A new committee whose honest members sign without fail, and the block that it is to agree upon.
-- The members counted as faulty may have any role.
structure Meeting extends Roster where
  leader : ValidatorId
  view : LedgerView
  block : Block
  seats : ValidatorId → Seat
  leader_honest : leader ∈ toRoster.honest
  leader_proposes : (seats leader).role.isProposer = true
  isHonest : ∀ v ∈ toRoster.honest, (seats v).role.IsHonest
  supplied : ∀ v ∈ toRoster.honest, (seats v).signer.Supplied
  common : ∀ v ∈ toRoster.honest, (seats v).thresholds = thresholds
  passes : block.check view = .ok ()
  enough : thresholds.deliveryThreshold + faulty.card < thresholds.validators.toNat

structure Exchange where
  sessions : Assembly
  -- what each validator took from the network so far, with the sender
  read : ValidatorId → List (ValidatorId × Message)
  proposed : Bool

-- The message of an action that goes to a validator.
def Action.toward (leader v : ValidatorId) : Action → Option Message
  | .broadcast m => some m
  | .sendToLeader m => if v = leader then some m else none
  | .delivered _ _ => none

-- What goes to one validator is some of what is sent.
theorem countP_toward_le (leader v : ValidatorId) (p : Message → Bool) (done : List Action) :
    (done.filterMap (Action.toward leader v)).countP p ≤ done.countP fun a => a.message?.any p := by
  rw [List.countP_filterMap]
  refine List.countP_mono_left fun a _ ha => ?_
  cases a with
  | broadcast m => simpa [Action.toward, Action.message?] using ha
  | sendToLeader m =>
      by_cases hv : v = leader
      · simpa [Action.toward, Action.message?, hv] using ha
      · simp [Action.toward, hv] at ha
  | delivered d' height => simp [Action.toward] at ha

def readFrom (u : ValidatorId) (read : List (ValidatorId × Message)) : List Message :=
  (read.filter fun e => e.1 = u).map (·.2)

theorem mem_readFrom {u : ValidatorId} {read : List (ValidatorId × Message)} {m : Message} :
    m ∈ readFrom u read ↔ (u, m) ∈ read := by
  simp [readFrom]

theorem readFrom_append (u : ValidatorId) (xs ys : List (ValidatorId × Message)) :
    readFrom u (xs ++ ys) = readFrom u xs ++ readFrom u ys := by
  simp [readFrom]

-- When everyone's messages carry the own seal, senders and signers are the same.
theorem filter_signer_eq_readFrom {read : List (ValidatorId × Message)}
    (h : ∀ e ∈ read, e.2.signer? = some e.1) (u : ValidatorId) :
    (read.map (·.2)).filter (fun m => m.signer? = some u) = readFrom u read := by
  rw [readFrom, List.filter_map]
  congr 1
  refine List.filter_congr fun e he => ?_
  simp [h e he]

namespace Exchange

def handle (x : Exchange) (v : ValidatorId) (picks : List (ValidatorId × Message)) : Exchange :=
  { x with
    sessions := x.sessions.call v (.batch (picks.map (·.2)))
    read := Function.update x.read v (x.read v ++ picks) }

section Handle

variable (x : Exchange) {v w : ValidatorId} (picks : List (ValidatorId × Message))

theorem sessions_handle_self :
    (x.handle v picks).sessions v = (x.sessions v).answer (.batch (picks.map (·.2))) :=
  x.sessions.call_self v _

theorem sessions_handle_of_ne (h : w ≠ v) : (x.handle v picks).sessions w = x.sessions w :=
  x.sessions.call_of_ne h _

theorem read_handle_self : (x.handle v picks).read v = x.read v ++ picks :=
  Function.update_self ..

theorem read_handle_of_ne (h : w ≠ v) : (x.handle v picks).read w = x.read w :=
  Function.update_of_ne h ..

end Handle

end Exchange

namespace Meeting

variable (M : Meeting)

-- All that a validator ever sent to another, in order.
def inbound (x : Exchange) (u v : ValidatorId) : List Message :=
  (x.sessions u).done.filterMap (Action.toward M.leader v)

def start : Exchange :=
  ⟨fun v => .start ((M.seats v).replica v) M.view, fun _ => [], false⟩

def propose (x : Exchange) : Exchange :=
  { x with sessions := x.sessions.call M.leader (.propose M.block), proposed := true }

-- The network keeps each sender's order and loses and repeats nothing. Otherwise messages are taken
-- from it in any order and in any batches.
inductive Reachable : Exchange → Prop
  | start : Reachable M.start
  | propose {x : Exchange} (before : Reachable x) (first : x.proposed = false) :
      Reachable (M.propose x)
  | handle {x : Exchange} {v : ValidatorId} {picks : List (ValidatorId × Message)}
      (before : Reachable x) (member : v ∈ M.members) (sources : ∀ e ∈ picks, e.1 ∈ M.members)
      (inOrder : ∀ u ∈ M.members, readFrom u (x.read v ++ picks) <+: M.inbound x u v) :
      Reachable (x.handle v picks)

-- Nothing that was sent is left to be taken.
def Quiet (x : Exchange) : Prop :=
  ∀ u ∈ M.members, ∀ v ∈ M.members, readFrom u (x.read v) = M.inbound x u v

-- Whether a block is the one proposed, seals and votes apart.
def Says (b : Block) : Prop :=
  b.Agrees M.block

-- What holds of every member.
structure Member (v : ValidatorId) (s : Session) : Prop where
  id : s.replica.id = v
  stores : s.replica.Stores M.Says
  carries : ∀ a ∈ s.done, a.Carries M.Says
  sealedBy : ∀ a ∈ s.done, a.SealedBy v
  sparing : s.replica.Sparing s.done

-- What holds of an honest member on top of that.
structure Faithful (v : ValidatorId) (s : Session) : Prop where
  role : s.replica.role = (M.seats v).role
  grounded : s.Grounded
  prompt : s.replica.Prompt (M.seats v).signer.next.publicKey s.counted s.done
  settled : s.replica.isDelivered = false → s.replica.Settled
  fresh : s.replica.isDelivered = false → s.replica.finalized = []
  view : s.replica.view = M.view
  thresholds : s.replica.thresholds = M.thresholds

-- What an honest member makes of what it read.
structure Reads (s : Session) (read : List (ValidatorId × Message)) : Prop where
  keyChain : s.replica.keyChain = (∅ : KeyChain ValidatorId).follow (read.map (·.2))
  counted : s.counted.Sublist (read.map (·.2))
  honest : s.replica.isDelivered = false → ∀ e ∈ read, e.1 ∈ M.honest → e.2 ∈ s.counted

structure Sound (x : Exchange) : Prop where
  member : ∀ v ∈ M.members, M.Member v (x.sessions v)
  faithful : ∀ v ∈ M.honest, M.Faithful v (x.sessions v)
  reads : ∀ v ∈ M.honest, M.Reads (x.sessions v) (x.read v)
  sources : ∀ v ∈ M.members, ∀ e ∈ x.read v, e.1 ∈ M.members
  inOrder : ∀ v ∈ M.members, ∀ u ∈ M.members, readFrom u (x.read v) <+: M.inbound x u v
  proposal : x.proposed = true →
    ∃ m, .broadcast m ∈ (x.sessions M.leader).done ∧ m.kind = .send

variable {M}

theorem mem_members {v : ValidatorId} (h : v ∈ M.honest) : v ∈ M.members :=
  (Finset.mem_sdiff.mp h).1

theorem says_of_agrees (a b : Block) (h : a.Agrees b) (hb : M.Says b) : M.Says a :=
  h.trans hb

theorem Says.isValid {b : Block} (h : M.Says b) : b.isValid M.view = true := by
  rw [Block.Agrees.isValid h]
  exact Block.isValid_iff.mpr M.passes

theorem sound_start : M.Sound M.start where
  member := fun v _ =>
    ⟨rfl, (Replica.stores_create ..).startRun M.view, by simp [start, Session.start],
      by simp [start, Session.start], by simp [start, Session.start, Replica.Sparing]⟩
  faithful := fun v hv =>
    ⟨rfl, ⟨.start (Replica.stores_create ..) M.view, M.isHonest v hv⟩,
      .start ((M.seats v).replica v) (M.supplied v hv) M.view,
      fun _ => Replica.settled_startRun _ _, fun _ => rfl, rfl,
      M.common v hv⟩
  reads := fun v _ => ⟨rfl, by simp [start, Session.start], by simp [start]⟩
  sources := by simp [start]
  inOrder := by simp [start, readFrom]
  proposal := by simp [start]

section Steps

variable {v : ValidatorId} {s : Session}

theorem Member.answer (h : M.Member v s) {c : Replica.Call} (hc : c.isStart = false)
    (hbrings : s.replica.Brings M.Says c) : M.Member v (s.answer c) := by
  obtain ⟨hstores, hcarries⟩ := h.stores.answer says_of_agrees hbrings
  rw [s.answer_eq hc]
  refine ⟨(Replica.answer_sameSeat h.stores.proper c).id.trans h.id, hstores, ?_, ?_,
    h.sparing.answer says_of_agrees h.stores hc hbrings⟩
  · exact fun a ha => (List.mem_append.mp ha).elim (h.carries a) (hcarries a)
  · exact fun a ha => (List.mem_append.mp ha).elim (h.sealedBy a)
      fun ha => h.id ▸ Replica.sealedBy_of_mem_answer h.stores.proper ha

theorem Faithful.batch (h : M.Faithful v s) (hm : M.Member v s) {batch : List Message}
    (hcontent : ∀ m ∈ batch, M.Says m.block) : M.Faithful v (s.answer (.batch batch)) := by
  have hgrounded := h.grounded.answer (c := .batch batch) rfl
  have hsame := Replica.outcome_sameSetup hm.stores.proper batch
  rw [Session.answer_batch hm.stores.proper h.grounded.honest] at hgrounded ⊢
  refine ⟨hsame.role.trans h.role, hgrounded, ?_, Replica.settled_outcome, ?_,
    hsame.view.trans h.view, hsame.thresholds.trans h.thresholds⟩
  · exact h.prompt.outcome says_of_agrees hm.stores (fun hactive => (h.settled hactive).pending)
      hcontent
  · exact fun hend => (Replica.outcome_finalized hm.stores.proper hend).trans
      (h.fresh (Replica.isDelivered_of_outcome hend))

theorem Faithful.propose (h : M.Faithful v s) (hrole : s.replica.role.isProposer = true)
    (b : Block) :
    M.Faithful v (s.answer (.propose b)) ∧
      (s.answer (.propose b)).replica.keyChain = s.replica.keyChain ∧
      (s.answer (.propose b)).replica.isDelivered = s.replica.isDelivered ∧
      (s.answer (.propose b)).counted = s.counted ∧
      ∃ m, (s.answer (.propose b)).done = s.done ++ [.broadcast m] ∧ m.kind = .send := by
  obtain ⟨m, signer, hsupplied, hanswer, hvotes, hsealed⟩ :=
    Replica.propose_of_supplied h.prompt.supplied hrole b
  have hgrounded := h.grounded.answer (c := .propose b) rfl
  have heq : s.answer (.propose b) =
      ⟨{ s.replica with signer }, s.counted, s.done ++ [.broadcast m]⟩ := by
    rw [Session.answer_propose, hanswer]
  rw [heq] at hgrounded ⊢
  exact ⟨⟨h.role, hgrounded, h.prompt.broadcast hsupplied hsealed,
    fun hactive => ⟨(h.settled hactive).pending, (h.settled hactive).echoes,
      (h.settled hactive).readies, (h.settled hactive).undelivered⟩,
    h.fresh, h.view, h.thresholds⟩, rfl, rfl, rfl, m, rfl, hvotes.kind⟩

-- What a sender that chains its keys sent is accepted by everyone that reads it in order, unless
-- the block was delivered before.
theorem accepts_of_chained {r : Replica} {read picks : List (ValidatorId × Message)}
    (hchain : r.keyChain = (∅ : KeyChain ValidatorId).follow (read.map (·.2)))
    (hnew : M.block.id ∉ r.finalized) (hview : r.view = M.view)
    (hsigner : ∀ e ∈ read ++ picks, e.2.signer? = some e.1)
    {u : ValidatorId} {m : Message} (hcontent : M.Says m.block)
    {first last : PublicKey} {sent : List Message} (hchained : Chained u first sent last)
    (horder : readFrom u (read ++ picks) ++ [m] <+: sent) :
    ∃ s, (r.onMessages (picks.map (·.2))).Accepts m s := by
  obtain ⟨rest, rfl⟩ := horder
  rw [List.append_assoc] at hchained
  obtain ⟨mid, hbefore, next, hsealed, -⟩ := chained_append.mp hchained
  rw [← filter_signer_eq_readFrom hsigner] at hbefore
  obtain ⟨s', hs', haccepted⟩ := KeyChain.isAccepted_of_chained hbefore hsealed
  have hkeys : (r.onMessages (picks.map (·.2))).keyChain =
      (∅ : KeyChain ValidatorId).follow ((read ++ picks).map (·.2)) := by
    rw [r.onMessages_keyChain, hchain, List.map_append, KeyChain.follow_append]
  refine ⟨s', hs', hkeys ▸ haccepted, ?_, .inr ?_⟩
  · have hid : m.blockId = M.block.id := Block.Agrees.id hcontent
    rwa [r.onMessages_finalized, hid]
  · rw [(r.onMessages_sameSetup _).view, hview]
    exact hcontent.isValid

theorem mem_counted_of_chained {r : Replica} {read picks : List (ValidatorId × Message)}
    (hchain : r.keyChain = (∅ : KeyChain ValidatorId).follow (read.map (·.2)))
    (hfresh : r.finalized = []) (hview : r.view = M.view)
    (hsigner : ∀ e ∈ read ++ picks, e.2.signer? = some e.1)
    (hcontent : ∀ e ∈ picks, M.Says e.2.block)
    {u : ValidatorId} {first last : PublicKey} {sent : List Message}
    (hchained : Chained u first sent last) (horder : readFrom u (read ++ picks) <+: sent)
    {m : Message} (hm : (u, m) ∈ picks) : m ∈ r.counted (picks.map (·.2)) := by
  obtain ⟨xs, ys, rfl⟩ := List.append_of_mem hm
  have hbefore : readFrom u (read ++ xs) ++ [m] <+: readFrom u (read ++ (xs ++ (u, m) :: ys)) :=
    ⟨readFrom u ys, by simp [readFrom]⟩
  have hsigner' : ∀ e ∈ read ++ xs, e.2.signer? = some e.1 := fun e he =>
    hsigner e (by rw [← List.append_assoc]; exact List.mem_append_left _ he)
  obtain ⟨s, hs⟩ := accepts_of_chained hchain (hfresh ▸ List.not_mem_nil) hview hsigner'
    (hcontent _ hm) hchained (hbefore.trans horder)
  rw [List.map_append, List.map_cons, Replica.counted_append]
  refine List.mem_append_right _ ?_
  simp [Replica.counted, Replica.onMessage_of_accepts hs]

-- If all senders chain their keys, every message counts.
theorem counted_of_chained {r : Replica} {read picks : List (ValidatorId × Message)}
    (hchain : r.keyChain = (∅ : KeyChain ValidatorId).follow (read.map (·.2)))
    (hnew : M.block.id ∉ r.finalized) (hview : r.view = M.view)
    (hsigner : ∀ e ∈ read ++ picks, e.2.signer? = some e.1)
    (hcontent : ∀ e ∈ picks, M.Says e.2.block)
    (horder : ∀ e ∈ picks, ∃ first sent last,
      Chained e.1 first sent last ∧ readFrom e.1 (read ++ picks) <+: sent) :
    r.counted (picks.map (·.2)) = picks.map (·.2) := by
  induction picks using List.reverseRecOn with
  | nil => rfl
  | append_singleton xs e ih =>
      obtain ⟨u, m⟩ := e
      rw [← List.append_assoc] at hsigner horder
      obtain ⟨first, sent, last, hchained, hlast⟩ := horder (u, m) (by simp)
      have hsigner' : ∀ e ∈ read ++ xs, e.2.signer? = some e.1 := fun e he =>
        hsigner e (List.mem_append_left _ he)
      have hsnoc : readFrom u (read ++ xs ++ [(u, m)]) = readFrom u (read ++ xs) ++ [m] := by
        simp [readFrom]
      obtain ⟨s, hs⟩ := accepts_of_chained hchain hnew hview hsigner'
        (hcontent (u, m) (by simp)) hchained (hsnoc ▸ hlast)
      have hxs := ih hsigner' (fun e he => hcontent e (List.mem_append_left _ he)) fun e he => by
        obtain ⟨first, sent, last, hchained, hprefix⟩ := horder e (List.mem_append_left _ he)
        refine ⟨first, sent, last, hchained, List.IsPrefix.trans ?_ hprefix⟩
        rw [readFrom_append _ (read ++ xs)]
        exact List.prefix_append _ _
      rw [List.map_append, Replica.counted_append, hxs]
      simp [Replica.counted, Replica.onMessage_of_accepts hs]

theorem Reads.batch {read picks : List (ValidatorId × Message)} (h : M.Reads s read)
    (hm : M.Member v s) (hf : M.Faithful v s)
    (hsigner : ∀ e ∈ read ++ picks, e.2.signer? = some e.1)
    (hcontent : ∀ e ∈ picks, M.Says e.2.block)
    (horder : ∀ u ∈ M.honest, ∃ first sent last,
      Chained u first sent last ∧ readFrom u (read ++ picks) <+: sent) :
    M.Reads (s.answer (.batch (picks.map (·.2)))) (read ++ picks) := by
  rw [Session.answer_batch hm.stores.proper hf.grounded.honest]
  refine ⟨?_, ?_, ?_⟩
  · rw [Replica.outcome_keyChain hm.stores.proper, h.keyChain, List.map_append,
      KeyChain.follow_append]
  · rw [List.map_append]
    exact h.counted.append (s.replica.counted_sublist _)
  · intro hend e he hhonest
    have hactive := Replica.isDelivered_of_outcome hend
    rcases List.mem_append.mp he with he | he
    · exact List.mem_append_left _ (h.honest hactive e he hhonest)
    · obtain ⟨first, sent, last, hchained, hinitial⟩ := horder e.1 hhonest
      exact List.mem_append_right _ (mem_counted_of_chained h.keyChain (hf.fresh hactive) hf.view
        hsigner hcontent hchained hinitial he)

end Steps

theorem inbound_isPrefix_of_extends {x y : Exchange} {u : ValidatorId}
    (h : (x.sessions u).Extends (y.sessions u)) (v : ValidatorId) :
    M.inbound x u v <+: M.inbound y u v :=
  h.done.filterMap _

-- Who never sends to the leader alone sends everything to everyone.
theorem inbound_eq_messagesOf {x : Exchange} {u : ValidatorId}
    (h : ∀ m, .sendToLeader m ∉ (x.sessions u).done) (v : ValidatorId) :
    M.inbound x u v = messagesOf (x.sessions u).done := by
  refine List.filterMap_congr fun a ha => ?_
  cases a with
  | broadcast m => rfl
  | sendToLeader m => exact absurd ha (h m)
  | delivered d height => rfl

theorem Faithful.inbound_eq {x : Exchange} {u : ValidatorId} (h : M.Faithful u (x.sessions u))
    (v : ValidatorId) : M.inbound x u v = messagesOf (x.sessions u).done :=
  inbound_eq_messagesOf h.prompt.toAll v

-- Whatever is on its way from a member was sent by it.
theorem mem_done_of_mem_inbound {x : Exchange} {u v : ValidatorId} {m : Message}
    (h : m ∈ M.inbound x u v) : ∃ a ∈ (x.sessions u).done, a.message? = some m := by
  obtain ⟨a, ha, hm⟩ := List.mem_filterMap.mp h
  refine ⟨a, ha, ?_⟩
  cases a with
  | broadcast m' => exact hm
  | sendToLeader m' =>
      simp only [Action.toward] at hm
      split at hm
      · exact hm
      · cases hm
  | delivered d height => cases hm

theorem Member.says_of_mem_inbound {x : Exchange} {u v : ValidatorId}
    (h : M.Member u (x.sessions u)) {m : Message} (hm : m ∈ M.inbound x u v) :
    M.Says m.block ∧ m.signer? = some u := by
  obtain ⟨a, ha, hmessage⟩ := mem_done_of_mem_inbound hm
  exact ⟨(h.carries a ha).of_message hmessage, h.sealedBy a ha m hmessage⟩

theorem Sound.says_of_mem_inbound {x : Exchange} (h : M.Sound x) {u v : ValidatorId}
    (hu : u ∈ M.members) {m : Message} (hm : m ∈ M.inbound x u v) :
    M.Says m.block ∧ m.signer? = some u :=
  (h.member u hu).says_of_mem_inbound hm

theorem Sound.propose {x : Exchange} (h : M.Sound x) : M.Sound (M.propose x) := by
  have hleader := M.leader_honest
  have hrole : (x.sessions M.leader).replica.role.isProposer = true :=
    (h.faithful _ hleader).role ▸ M.leader_proposes
  have hext : ∀ u, (x.sessions u).Extends ((M.propose x).sessions u) :=
    x.sessions.extends_call M.leader rfl
  obtain ⟨hfaithful, hkeys, hdelivered, hcounted, m, hdone, hkind⟩ :=
    (h.faithful _ hleader).propose hrole M.block
  refine ⟨?_, ?_, ?_, h.sources, fun v hv u hu => (h.inOrder v hv u hu).trans
    (inbound_isPrefix_of_extends (hext u) v), fun _ => ⟨m, ?_, hkind⟩⟩
  · exact Assembly.forall_call h.member fun hw => (h.member _ hw).answer rfl fun _ => .rfl
  · exact Assembly.forall_call h.faithful fun _ => hfaithful
  · refine Assembly.forall_call (I := fun w s => M.Reads s (x.read w)) h.reads fun hw => ?_
    have hreads := h.reads _ hw
    exact ⟨hkeys.trans hreads.keyChain, hcounted ▸ hreads.counted,
      fun hactive => hcounted ▸ hreads.honest (hdelivered ▸ hactive)⟩
  · change Action.broadcast m ∈ (x.sessions.call M.leader _ M.leader).done
    rw [Assembly.call_self, hdone]
    simp

theorem Sound.handle {x : Exchange} (h : M.Sound x) {v : ValidatorId}
    {picks : List (ValidatorId × Message)} (hv : v ∈ M.members)
    (hsources : ∀ e ∈ picks, e.1 ∈ M.members)
    (horder : ∀ u ∈ M.members, readFrom u (x.read v ++ picks) <+: M.inbound x u v) :
    M.Sound (x.handle v picks) := by
  have hext : ∀ u, (x.sessions u).Extends ((x.handle v picks).sessions u) :=
    x.sessions.extends_call v rfl
  have hread := x.read_handle_self (v := v) picks
  have hall : ∀ e ∈ x.read v ++ picks, e.1 ∈ M.members := fun e he =>
    (List.mem_append.mp he).elim (h.sources v hv e) (hsources e)
  have hcontent : ∀ e ∈ x.read v ++ picks, M.Says e.2.block ∧ e.2.signer? = some e.1 :=
    fun e he => h.says_of_mem_inbound (hall e he)
      ((horder e.1 (hall e he)).subset (mem_readFrom.mpr he))
  have hbatch : ∀ m ∈ picks.map (·.2), M.Says m.block := by
    intro m hm
    obtain ⟨e, he, rfl⟩ := List.mem_map.mp hm
    exact (hcontent e (List.mem_append_right _ he)).1
  refine ⟨?_, ?_, ?_, ?_, ?_, ?_⟩
  · exact Assembly.forall_call h.member fun hw => (h.member v hw).answer rfl hbatch
  · exact Assembly.forall_call h.faithful fun hw => (h.faithful v hw).batch (h.member v hv) hbatch
  · intro w hw
    by_cases hwv : w = v
    · subst hwv
      rw [x.sessions_handle_self, hread]
      refine (h.reads w hw).batch (h.member w hv) (h.faithful w hw) (fun e he => (hcontent e he).2)
        (fun e he => (hcontent e (List.mem_append_right _ he)).1) fun u hu => ?_
      have hu' := h.faithful u hu
      refine ⟨_, _, _, (h.member u (mem_members hu)).id ▸ hu'.prompt.chained, ?_⟩
      exact hu'.inbound_eq w ▸ horder u (mem_members hu)
    · rw [x.sessions_handle_of_ne picks hwv, x.read_handle_of_ne picks hwv]
      exact h.reads w hw
  · intro w hw
    by_cases hwv : w = v
    · subst hwv
      exact hread ▸ hall
    · exact x.read_handle_of_ne picks hwv ▸ h.sources w hw
  · intro w hw u hu
    refine List.IsPrefix.trans ?_ (inbound_isPrefix_of_extends (hext u) w)
    by_cases hwv : w = v
    · subst hwv
      exact hread ▸ horder u hu
    · exact x.read_handle_of_ne picks hwv ▸ h.inOrder w hw u hu
  · intro hproposed
    obtain ⟨m, hm, hkind⟩ := h.proposal hproposed
    exact ⟨m, (hext M.leader).done.subset hm, hkind⟩

theorem sound_of_reachable {x : Exchange} (h : M.Reachable x) : M.Sound x := by
  induction h with
  | start => exact sound_start
  | propose before first ih => exact ih.propose
  | handle before member sources inOrder ih => exact ih.handle member sources inOrder

end Meeting

end QuorumLedger
