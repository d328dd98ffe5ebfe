import Mathlib.Data.List.Nodup
import QuorumLedger.Inbox
import QuorumLedger.Proofs.Consensus.Sending
import QuorumLedger.Proofs.Consensus.Succession

namespace QuorumLedger

-- Whether the seal of a message is accepted by one that followed others before.
def KeyChain.admits (c : KeyChain ValidatorId) (m : Message) : Bool :=
  (m.block.checkSeal c).1.any fun e => e.2.isAccepted

-- Who holds a validator's outbound lock, and what is left to be done before it is free again.
inductive Lock where
  | free
  | worker
  | proposal (b : Block)
  -- all is signed, and these copies have yet to be put into inboxes
  | sending (byWorker : Bool) (left : List (ValidatorId × Message))

def Lock.left : Lock → List (ValidatorId × Message)
  | sending _ left => left
  | _ => []

-- One validator: its replica and worker, its lock and its inbox.
structure Station where
  replica : Replica
  -- what the worker took from the inbox and has not handed over yet
  batch : Option (List Message)
  lock : Lock
  inbox : Inbox
  -- all that was taken from the inbox so far, and all that was signed
  drained : List Message
  signed : List Message

-- All that ever came into the inbox.
def Station.arrived (s : Station) : List Message :=
  s.drained ++ s.inbox.messages

-- The validators on a network that loses nothing, none of them with faults.
structure Deployment where
  members : List ValidatorId
  leader : ValidatorId
  seats : ValidatorId → Seat
  nodup : members.Nodup
  isHonest : ∀ v ∈ members, (seats v).role.IsHonest

abbrev Dispatch := ValidatorId → Station

namespace Deployment

variable (D : Deployment)

-- The copies of what an action sends, in the order in which they go out.
def copies : Action → List (ValidatorId × Message)
  | .broadcast m => D.members.map fun t => (t, m)
  | .sendToLeader m => [(D.leader, m)]
  | .delivered _ _ => []

-- Signs what a call leads to. The lock is then held for the copies.
def sign (s : Station) (byWorker : Bool) (c : Replica.Call) : Station :=
  { s with
    replica := (s.replica.answer c).2
    lock := .sending byWorker ((s.replica.answer c).1.flatMap D.copies)
    signed := s.signed ++ messagesOf (s.replica.answer c).1 }

-- The steps of a validator that reach no other. The worker may take its batch before it has the
-- lock or after, but not while it sends.
inductive Step : Station → Station → Prop
  | drain {s : Station} {batch : List Message} {inbox : Inbox} (idle : s.batch = none)
      (waits : ∀ left, s.lock ≠ .sending true left)
      (drained : s.inbox.waitDrain? true = some (batch, inbox)) :
      Step s { s with batch := some batch, inbox, drained := s.drained ++ batch }
  | lockWorker {s : Station} (free : s.lock = .free) : Step s { s with lock := .worker }
  | lockProposal {s : Station} (b : Block) (free : s.lock = .free) :
      Step s { s with lock := .proposal b }
  | handle {s : Station} {batch : List Message} (locked : s.lock = .worker)
      (held : s.batch = some batch) :
      Step s { D.sign s true (.batch batch) with batch := none }
  | propose {s : Station} {b : Block} (locked : s.lock = .proposal b) :
      Step s (D.sign s false (.propose b))
  | unlock {s : Station} {byWorker : Bool} (locked : s.lock = .sending byWorker []) :
      Step s { s with lock := .free }
  -- neither needs the lock
  | startRun {s : Station} (view : LedgerView) :
      Step s { s with replica := (s.replica.answer (.startRun view)).2 }
  | takeDelivered {s : Station} :
      Step s { s with replica := (s.replica.answer .takeDelivered).2 }

-- Moves a validator's lock on.
def setLock (x : Dispatch) (v : ValidatorId) (lock : Lock) : Dispatch :=
  Function.update x v { x v with lock }

-- Puts a copy into an inbox.
def deliver (x : Dispatch) (t : ValidatorId) (m : Message) : Dispatch :=
  Function.update x t { x t with inbox := (x t).inbox.push m }

def start : Dispatch :=
  fun v => ⟨(D.seats v).replica v, none, .free, .empty, [], []⟩

inductive Reachable : Dispatch → Prop
  | start : Reachable D.start
  | step {x : Dispatch} {v : ValidatorId} {s : Station} (before : Reachable x)
      (member : v ∈ D.members) (step : D.Step (x v) s) : Reachable (Function.update x v s)
  | push {x : Dispatch} {v t : ValidatorId} {m : Message} {byWorker : Bool}
      {left : List (ValidatorId × Message)} (before : Reachable x) (member : v ∈ D.members)
      (locked : (x v).lock = .sending byWorker ((t, m) :: left)) :
      Reachable (deliver (setLock x v (.sending byWorker left)) t m)

-- The copies for one validator.
def toward (t : ValidatorId) (left : List (ValidatorId × Message)) : List Message :=
  (left.filter fun e => e.1 = t).map (·.2)

-- What holds of a validator by itself.
structure Consistent (v : ValidatorId) (s : Station) : Prop where
  id : s.replica.id = v
  honest : s.replica.role.IsHonest
  stores : s.replica.Stores fun _ => True
  chained : Chained v (D.seats v).signer.next.publicKey s.signed s.replica.signer.next.publicKey
  signer : ∀ m ∈ s.signed, m.signer? = some v
  targets : ∀ e ∈ s.lock.left, e.2 ∈ s.signed

-- What holds between validators: whatever one signed has arrived at another or is left to be put
-- into its inbox.
structure Orderly (x : Dispatch) : Prop where
  consistent : ∀ v ∈ D.members, D.Consistent v (x v)
  arrived : ∀ t ∈ D.members, ∀ v ∈ D.members,
    (x t).arrived.filter (fun m => m.signer? = some v) ++ toward t (x v).lock.left = (x v).signed
  signers : ∀ t, ∀ m ∈ (x t).arrived, ∃ v ∈ D.members, m.signer? = some v

variable {D}

theorem toward_append (t : ValidatorId) (xs ys : List (ValidatorId × Message)) :
    toward t (xs ++ ys) = toward t xs ++ toward t ys := by
  simp [toward]

theorem toward_map (m : Message) {t : ValidatorId} {members : List ValidatorId}
    (hnodup : members.Nodup) (ht : t ∈ members) :
    toward t (members.map fun u => (u, m)) = [m] := by
  have hone : members.filter (fun u => decide (u = t)) = [t] := by
    rw [List.filter_eq, List.count_eq_one_of_mem hnodup ht]
    rfl
  rw [toward, List.filter_map]
  simp only [Function.comp_def, hone, List.map_cons, List.map_nil]

-- A member gets a copy of each message that is for everyone.
theorem toward_copies {actions : List Action} (htoAll : ∀ m, .sendToLeader m ∉ actions)
    {t : ValidatorId} (ht : t ∈ D.members) :
    toward t (actions.flatMap D.copies) = messagesOf actions := by
  induction actions with
  | nil => rfl
  | cons a rest ih =>
      have hrest := ih fun m hm => htoAll m (List.mem_cons_of_mem a hm)
      rw [List.flatMap_cons, toward_append, hrest]
      cases a with
      | broadcast m => simp only [copies, toward_map m D.nodup ht]; rfl
      | sendToLeader m => exact absurd List.mem_cons_self (htoAll m)
      | delivered d height => rfl

theorem mem_of_mem_copies {actions : List Action} {e : ValidatorId × Message}
    (h : e ∈ actions.flatMap D.copies) : e.2 ∈ messagesOf actions := by
  obtain ⟨a, ha, he⟩ := List.mem_flatMap.mp h
  refine mem_messagesOf.mpr ⟨a, ha, ?_⟩
  cases a with
  | broadcast m =>
      obtain ⟨t, -, rfl⟩ := List.mem_map.mp he
      rfl
  | sendToLeader m =>
      obtain rfl := List.mem_singleton.mp he
      rfl
  | delivered d height => cases he

-- What a step of one validator changes for the others: nothing has arrived, and what was newly
-- signed is left to be sent.
structure Progress (s s' : Station) : Prop where
  arrived : s'.arrived = s.arrived
  signed : ∃ now, s'.signed = s.signed ++ now ∧
    ∀ t ∈ D.members, toward t s'.lock.left = toward t s.lock.left ++ now

theorem Progress.of_idle {s s' : Station} (harrived : s'.arrived = s.arrived)
    (hsigned : s'.signed = s.signed) (hleft : s'.lock.left = s.lock.left) :
    D.Progress s s' :=
  ⟨harrived, [], by rw [hsigned, List.append_nil], fun t _ => by rw [hleft, List.append_nil]⟩

theorem Consistent.sign {v : ValidatorId} {s : Station} (h : D.Consistent v s)
    (hleft : s.lock.left = []) (byWorker : Bool) {c : Replica.Call} :
    D.Consistent v (D.sign s byWorker c) ∧ D.Progress s (D.sign s byWorker c) := by
  have hproper := h.stores.proper
  have hlinked := Replica.linked_answer hproper h.honest c
  rw [h.id] at hlinked
  refine ⟨⟨?_, ?_, ?_, ?_, ?_, ?_⟩, rfl, _, rfl, fun t ht => ?_⟩
  · exact (Replica.answer_sameSeat hproper c).id.trans h.id
  · exact (Replica.answer_sameSeat hproper c).role ▸ h.honest
  · exact h.stores.answer_any c
  · exact chained_append.mpr ⟨_, h.chained, hlinked.chained⟩
  · refine List.forall_mem_append.mpr ⟨h.signer, fun m hm => ?_⟩
    obtain ⟨a, ha, hmessage⟩ := mem_messagesOf.mp hm
    exact h.id ▸ Replica.sealedBy_of_mem_answer hproper ha m hmessage
  · exact fun e he => List.mem_append_right _ (mem_of_mem_copies he)
  · rw [hleft]
    exact toward_copies hlinked.toAll ht

-- What signs nothing keeps the chain of keys.
theorem Consistent.answer {v : ValidatorId} {s : Station} (h : D.Consistent v s)
    {c : Replica.Call} (hc : (s.replica.answer c).2.signer = s.replica.signer) :
    D.Consistent v { s with replica := (s.replica.answer c).2 } := by
  have hproper := h.stores.proper
  exact ⟨(Replica.answer_sameSeat hproper c).id.trans h.id,
    (Replica.answer_sameSeat hproper c).role ▸ h.honest, h.stores.answer_any c, hc ▸ h.chained,
    h.signer, h.targets⟩

theorem Consistent.step {v : ValidatorId} {s s' : Station} (h : D.Consistent v s)
    (hstep : D.Step s s') : D.Consistent v s' ∧ D.Progress s s' := by
  cases hstep with
  | @drain batch inbox idle waits drained =>
      refine ⟨⟨h.id, h.honest, h.stores, h.chained, h.signer, h.targets⟩,
        .of_idle ?_ rfl rfl⟩
      unfold Inbox.waitDrain? at drained
      split at drained
      · cases drained
      · cases drained
        simp [Station.arrived, Inbox.empty]
  | lockWorker free =>
      exact ⟨⟨h.id, h.honest, h.stores, h.chained, h.signer, by simp [Lock.left]⟩,
        .of_idle rfl rfl (by rw [free]; rfl)⟩
  | lockProposal b free =>
      exact ⟨⟨h.id, h.honest, h.stores, h.chained, h.signer, by simp [Lock.left]⟩,
        .of_idle rfl rfl (by rw [free]; rfl)⟩
  | @handle batch locked held =>
      obtain ⟨hc, hp⟩ := h.sign (by rw [locked]; rfl) true (c := .batch batch)
      exact ⟨⟨hc.id, hc.honest, hc.stores, hc.chained, hc.signer, hc.targets⟩,
        ⟨hp.arrived, hp.signed⟩⟩
  | @propose b locked => exact h.sign (by rw [locked]; rfl) false
  | unlock locked =>
      exact ⟨⟨h.id, h.honest, h.stores, h.chained, h.signer, by simp [Lock.left]⟩,
        .of_idle rfl rfl (by rw [locked]; rfl)⟩
  | startRun view => exact ⟨h.answer rfl, .of_idle rfl rfl rfl⟩
  | takeDelivered => exact ⟨h.answer rfl, .of_idle rfl rfl rfl⟩

theorem orderly_start : D.Orderly D.start where
  consistent := fun v hv =>
    ⟨rfl, D.isHonest v hv, Replica.stores_create .., rfl, by simp [start], by
      simp [start, Lock.left]⟩
  arrived := by simp [start, Station.arrived, Inbox.empty, toward, Lock.left]
  signers := by simp [start, Station.arrived, Inbox.empty]

theorem Orderly.step {x : Dispatch} (h : D.Orderly x) {v : ValidatorId} (hv : v ∈ D.members)
    {s : Station} (hstep : D.Step (x v) s) : D.Orderly (Function.update x v s) := by
  obtain ⟨hconsistent, hsame, now, hsigned, hleft⟩ := (h.consistent v hv).step hstep
  have harrived : ∀ t, (Function.update x v s t).arrived = (x t).arrived := by
    intro t
    by_cases ht : t = v
    · subst ht
      rw [Function.update_self, hsame]
    · rw [Function.update_of_ne ht]
  refine ⟨fun w hw => ?_, fun t ht w hw => ?_, fun t => ?_⟩
  · by_cases hwv : w = v
    · subst hwv
      rwa [Function.update_self]
    · rw [Function.update_of_ne hwv]
      exact h.consistent w hw
  · rw [harrived]
    by_cases hwv : w = v
    · subst hwv
      rw [Function.update_self, hleft t ht, ← List.append_assoc, h.arrived t ht w hw, hsigned]
    · rw [Function.update_of_ne hwv]
      exact h.arrived t ht w hw
  · rw [harrived]
    exact h.signers t

section Frames

variable (x : Dispatch) (v t w : ValidatorId)

theorem lock_setLock (lock : Lock) :
    (setLock x v lock w).lock = if w = v then lock else (x w).lock := by
  by_cases h : w = v
  · subst h
    simp [setLock]
  · simp [setLock, h]

theorem setLock_frame (lock : Lock) :
    (setLock x v lock w).replica = (x w).replica ∧ (setLock x v lock w).signed = (x w).signed ∧
      (setLock x v lock w).arrived = (x w).arrived := by
  by_cases h : w = v
  · subst h
    simp [setLock, Station.arrived]
  · simp [setLock, h]

theorem arrived_deliver (m : Message) :
    (deliver x t m w).arrived = (x w).arrived ++ if w = t then [m] else [] := by
  by_cases h : w = t
  · subst h
    simp [deliver, Station.arrived, Inbox.push]
  · simp [deliver, h]

theorem deliver_frame (m : Message) :
    (deliver x t m w).replica = (x w).replica ∧ (deliver x t m w).signed = (x w).signed ∧
      (deliver x t m w).lock = (x w).lock := by
  by_cases h : w = t
  · subst h
    simp [deliver]
  · simp [deliver, h]

end Frames

theorem Consistent.congr {v : ValidatorId} {s s' : Station} (h : D.Consistent v s)
    (hreplica : s'.replica = s.replica) (hsigned : s'.signed = s.signed)
    (hleft : ∀ e ∈ s'.lock.left, e.2 ∈ s.signed) : D.Consistent v s' :=
  ⟨hreplica ▸ h.id, hreplica ▸ h.honest, hreplica ▸ h.stores,
    by rw [hreplica, hsigned]; exact h.chained, by rw [hsigned]; exact h.signer,
    by rw [hsigned]; exact hleft⟩

-- A copy that is put into an inbox is the next one of its signer there.
theorem Orderly.push {x : Dispatch} (h : D.Orderly x) {v t : ValidatorId} (hv : v ∈ D.members)
    {m : Message} {byWorker : Bool} {left : List (ValidatorId × Message)}
    (hlock : (x v).lock = .sending byWorker ((t, m) :: left)) :
    D.Orderly (deliver (setLock x v (.sending byWorker left)) t m) := by
  have hself := h.consistent v hv
  have htargets := hself.targets
  rw [hlock] at htargets
  obtain ⟨hm, htargets⟩ := List.forall_mem_cons.mp htargets
  have hsigner : m.signer? = some v := hself.signer m hm
  have hframe : ∀ w, (deliver (setLock x v (.sending byWorker left)) t m w).replica =
        (x w).replica ∧
      (deliver (setLock x v (.sending byWorker left)) t m w).signed = (x w).signed ∧
      (deliver (setLock x v (.sending byWorker left)) t m w).lock =
        if w = v then .sending byWorker left else (x w).lock := by
    intro w
    obtain ⟨hreplica, hsigned, hlocked⟩ :=
      deliver_frame (setLock x v (.sending byWorker left)) t w m
    obtain ⟨hreplica', hsigned', -⟩ := setLock_frame x v w (.sending byWorker left)
    exact ⟨hreplica.trans hreplica', hsigned.trans hsigned', hlocked.trans (lock_setLock ..)⟩
  have harrived : ∀ w, (deliver (setLock x v (.sending byWorker left)) t m w).arrived =
      (x w).arrived ++ if w = t then [m] else [] := by
    intro w
    rw [arrived_deliver, (setLock_frame ..).2.2]
  refine ⟨fun w hw => ?_, fun u hu w hw => ?_, fun u m' hm' => ?_⟩
  · obtain ⟨hreplica, hsigned, hlocked⟩ := hframe w
    refine (h.consistent w hw).congr hreplica hsigned ?_
    rw [hlocked]
    split
    · rename_i hwv
      exact hwv ▸ htargets
    · exact (h.consistent w hw).targets
  · -- only what `v` has left for `t` gets shorter, by the copy that arrives
    obtain ⟨-, hsigned, hlocked⟩ := hframe w
    rw [hlocked, hsigned, harrived, ← h.arrived u hu w hw, List.filter_append, List.append_assoc]
    congr 1
    by_cases hwv : w = v
    · subst hwv
      rw [if_pos rfl, hlock]
      by_cases hut : u = t
      · subst hut
        simp [Lock.left, toward, hsigner]
      · simp [Lock.left, toward, hut, Ne.symm hut]
    · have hother : m.signer? ≠ some w := by
        rw [hsigner]
        exact fun he => hwv (Option.some.inj he).symm
      rw [if_neg hwv]
      split <;> simp [hother]
  · rw [harrived] at hm'
    rcases List.mem_append.mp hm' with hm' | hm'
    · exact h.signers u m' hm'
    · split at hm'
      · obtain rfl := List.mem_singleton.mp hm'
        exact ⟨v, hv, hsigner⟩
      · cases hm'

theorem orderly_of_reachable {x : Dispatch} (h : D.Reachable x) : D.Orderly x := by
  induction h with
  | start => exact orderly_start
  | step before member step ih => exact ih.step member step
  | push before member locked ih => exact ih.push member locked

-- What arrives from a validator in the order of signing fits the key chain of whoever reads it.
theorem Orderly.admits {x : Dispatch} (h : D.Orderly x) {t : ValidatorId} (ht : t ∈ D.members)
    {front : List Message} {m : Message} (hfront : front ++ [m] <+: (x t).arrived) :
    ((∅ : KeyChain ValidatorId).follow front).admits m = true := by
  obtain ⟨v, hv, hsigner⟩ := h.signers t m (hfront.subset (by simp))
  have hchained := (h.consistent v hv).chained
  have hstart : front.filter (fun m => m.signer? = some v) ++ [m] <+: (x v).signed := by
    refine List.IsPrefix.trans ?_ ⟨_, h.arrived t ht v hv⟩
    simpa [hsigner] using hfront.filter fun m => decide (m.signer? = some v)
  obtain ⟨rest, hrest⟩ := hstart
  rw [← hrest, List.append_assoc] at hchained
  obtain ⟨mid, hbefore, next, hsealed, -⟩ := chained_append.mp hchained
  obtain ⟨s, hs, haccepted⟩ := KeyChain.isAccepted_of_chained hbefore hsealed
  simpa [KeyChain.admits, Block.checkSeal, KeyChain.checkAndAdvance, Message.blockId, hs] using
    haccepted

-- Whoever holds the lock is the only one to sign and to send, so copies reach each inbox in the
-- order of the chain of keys. A new run does not wait for the lock, but it keeps the keys.
theorem arrived_inOrder {x : Dispatch} (hx : D.Reachable x) {t : ValidatorId}
    (ht : t ∈ D.members) :
    (∀ v ∈ D.members, (x t).arrived.filter (fun m => m.signer? = some v) <+: (x v).signed ∧
        ∃ last, Chained v (D.seats v).signer.next.publicKey (x v).signed last) ∧
      ∀ front m, front ++ [m] <+: (x t).arrived →
        ((∅ : KeyChain ValidatorId).follow front).admits m = true := by
  have h := orderly_of_reachable hx
  exact ⟨fun v hv => ⟨⟨_, h.arrived t ht v hv⟩, _, (h.consistent v hv).chained⟩,
    fun front m hfront => h.admits ht hfront⟩

-- A proposer and one more.
def pair : Deployment where
  members := [⟨0⟩, ⟨1⟩]
  leader := ⟨0⟩
  seats := fun v => ⟨if v = ⟨0⟩ then .proposer else .regular, ⟨2, 0⟩, [⟨0⟩, ⟨1⟩], .steady .blank⟩
  nodup := by decide
  isHonest := by decide

-- A step of one validator leaves the others as they are.
theorem exists_step {x : Dispatch} (hx : D.Reachable x) {v : ValidatorId} (hv : v ∈ D.members)
    {s : Station} (hstep : D.Step (x v) s) :
    ∃ y, D.Reachable y ∧ y v = s ∧ ∀ t, t ≠ v → y t = x t :=
  ⟨_, hx.step hv hstep, Function.update_self .., fun _ ht => Function.update_of_ne ht ..⟩

-- All copies that are left can go out, one after the other.
theorem exists_sent {x : Dispatch} (hx : D.Reachable x) {v : ValidatorId} (hv : v ∈ D.members)
    {byWorker : Bool} {left : List (ValidatorId × Message)}
    (hlock : (x v).lock = .sending byWorker left) :
    ∃ y, D.Reachable y ∧ ∀ t, y t = { x t with
      lock := if t = v then .sending byWorker [] else (x t).lock
      inbox := ⟨(x t).inbox.messages ++ toward t left⟩ } := by
  induction left generalizing x with
  | nil =>
      refine ⟨x, hx, fun t => ?_⟩
      by_cases ht : t = v
      · subst ht
        simp [toward, ← hlock]
      · simp [toward, ht]
  | cons e rest ih =>
      obtain ⟨u, m⟩ := e
      obtain ⟨y, hy, hstation⟩ := ih (hx.push hv hlock) (by simp [(deliver_frame ..).2.2,
        lock_setLock])
      refine ⟨y, hy, fun t => ?_⟩
      rw [hstation t]
      by_cases htu : t = u
      · subst htu
        by_cases htv : t = v
        · subst htv
          simp [deliver, setLock, toward, Inbox.push]
        · simp [deliver, setLock, toward, Inbox.push, htv]
      · by_cases htv : t = v
        · subst htv
          simp [deliver, setLock, toward, htu, Ne.symm htu]
        · simp [deliver, setLock, toward, htu, htv, Ne.symm htu]

-- The worker of the proposer takes the proposal from its inbox while the call that made it still
-- has the lock. The ECHO is signed and sent after.
theorem exists_reachable_pair :
    ∃ x send echo, pair.Reachable x ∧ send.kind = .send ∧ echo.kind = .echo ∧
      (x ⟨1⟩).arrived = [send, echo] := by
  have hmember : ⟨0⟩ ∈ pair.members := by decide
  obtain ⟨m, m', hpropose, hsend, hvote, hecho⟩ := Replica.echo_of_propose
    (r := (pair.seats ⟨0⟩).replica ⟨0⟩) (Signer.steady_supplied .blank) rfl rfl rfl
    (Block.check_blank _) List.not_mem_nil
  generalize hr : (((pair.seats ⟨0⟩).replica ⟨0⟩).answer (.propose .blank)).2 = r at hvote
  -- the proposal goes out, also to the proposer itself
  obtain ⟨x₁, hx₁, hself₁, hother₁⟩ := exists_step .start hmember (.lockProposal .blank rfl)
  obtain ⟨x₂, hx₂, hself₂, hother₂⟩ := exists_step hx₁ hmember (.propose (by rw [hself₁]))
  have hproposed :
      x₂ ⟨0⟩ = ⟨r, none, .sending false [(⟨0⟩, m), (⟨1⟩, m)], .empty, [], [m]⟩ := by
    simp only [hself₂, hself₁, sign, start, hpropose, hr]
    rfl
  obtain ⟨x₃, hx₃, hsent₃⟩ := exists_sent hx₂ hmember (by rw [hproposed])
  have hself₃ : x₃ ⟨0⟩ = ⟨r, none, .sending false [], ⟨[m]⟩, [], [m]⟩ := by
    rw [hsent₃, hproposed]
    rfl
  -- the worker takes it, and waits for the lock
  have hdrain : (x₃ ⟨0⟩).inbox.waitDrain? true = some ([m], .empty) := by
    rw [hself₃]
    rfl
  obtain ⟨x₄, hx₄, hself₄, hother₄⟩ := exists_step hx₃ hmember
    (.drain (by rw [hself₃]) (by simp [hself₃]) hdrain)
  rw [hself₃] at hself₄
  obtain ⟨x₅, hx₅, hself₅, hother₅⟩ := exists_step hx₄ hmember (.unlock (by rw [hself₄]))
  rw [hself₄] at hself₅
  obtain ⟨x₆, hx₆, hself₆, hother₆⟩ := exists_step hx₅ hmember (.lockWorker (by rw [hself₅]))
  rw [hself₅] at hself₆
  have hheld : (x₆ ⟨0⟩).batch = some [m] := by rw [hself₆]
  obtain ⟨x₇, hx₇, hself₇, hother₇⟩ := exists_step hx₆ hmember
    (.handle (by rw [hself₆]) hheld)
  rw [hself₆] at hself₇
  have hlock₇ : (x₇ ⟨0⟩).lock = .sending true [(⟨0⟩, m'), (⟨1⟩, m')] := by
    simp only [hself₇, sign, hvote]
    rfl
  obtain ⟨x₈, hx₈, hsent₈⟩ := exists_sent hx₇ hmember hlock₇
  have hother : (⟨1⟩ : ValidatorId) ≠ ⟨0⟩ := by decide
  refine ⟨x₈, m, m', hx₈, hsend, hecho, ?_⟩
  rw [hsent₈, hother₇ _ hother, hother₆ _ hother, hother₅ _ hother, hother₄ _ hother, hsent₃,
    hother₂ _ hother, hother₁ _ hother]
  rfl

theorem arrived_inOrder_pair :
    ∃ x send echo, pair.Reachable x ∧ ⟨1⟩ ∈ pair.members ∧ send.kind = .send ∧
      echo.kind = .echo ∧ (x ⟨1⟩).arrived = [send, echo] ∧
      (∀ v ∈ pair.members,
        [send, echo].filter (fun m => m.signer? = some v) <+: (x v).signed) ∧
      ((∅ : KeyChain ValidatorId).follow []).admits send = true ∧
        ((∅ : KeyChain ValidatorId).follow [send]).admits echo = true := by
  obtain ⟨x, send, echo, hx, hsend, hecho, harrived⟩ := exists_reachable_pair
  have hmember : ⟨1⟩ ∈ pair.members := by decide
  obtain ⟨hsigned, hadmits⟩ := arrived_inOrder hx hmember
  rw [harrived] at hsigned hadmits
  exact ⟨x, send, echo, hx, hmember, hsend, hecho, harrived, fun v hv => (hsigned v hv).1,
    hadmits [] send ⟨[echo], rfl⟩, hadmits [send] echo List.prefix_rfl⟩

end Deployment

end QuorumLedger
