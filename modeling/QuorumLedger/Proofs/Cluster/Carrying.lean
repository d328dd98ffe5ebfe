import QuorumLedger.Committee
import QuorumLedger.Proofs.Consensus.Prompt
import QuorumLedger.Proofs.Table
import QuorumLedger.Proofs.Wire.RoundTrip

namespace QuorumLedger

namespace Table

variable {κ α : Type} [DecidableEq κ]

theorem mem_entries_set {t : Table κ α} {k : κ} {a : α} {e : κ × α}
    (h : e ∈ (t.set k a).entries) : e.2 = a ∨ e ∈ t.entries := by
  obtain ⟨entries⟩ := t
  change e ∈ put k a entries at h
  change e.2 = a ∨ e ∈ entries
  induction entries with
  | nil => exact .inl (congrArg Prod.snd (List.mem_singleton.mp h))
  | cons e' rest ih =>
      unfold put at h
      split at h
      · rcases List.mem_cons.mp h with rfl | h
        · exact .inl rfl
        · exact .inr (List.mem_cons_of_mem _ h)
      · rcases List.mem_cons.mp h with rfl | h
        · exact .inr List.mem_cons_self
        · exact (ih h).imp id (List.mem_cons_of_mem _)

end Table

namespace Network

variable {σ : Type} {P : Block → Prop}

-- Whether all blocks that wait in inboxes are of some kind.
def Holds (P : Block → Prop) (n : Network σ) : Prop :=
  ∀ e ∈ n.inboxes.entries, ∀ m ∈ e.2.messages, P m.block

theorem Holds.mono {Q : Block → Prop} (hPQ : ∀ b, P b → Q b) {n : Network σ} (h : n.Holds P) :
    n.Holds Q :=
  fun e he m hm => hPQ _ (h e he m hm)

theorem Holds.setInbox {n : Network σ} (h : n.Holds P) (v : ValidatorId) {inbox : Inbox}
    (hinbox : ∀ m ∈ inbox.messages, P m.block) :
    { n with inboxes := n.inboxes.set v inbox }.Holds P := by
  intro e he
  rcases Table.mem_entries_set he with hnew | hold
  · exact hnew ▸ hinbox
  · exact h e hold

theorem Holds.push {n : Network σ} (h : n.Holds P) (v : ValidatorId) {inbox : Inbox}
    (hinbox : ∀ m ∈ inbox.messages, P m.block) {m : Message} (hm : P m.block) (count : Nat) :
    (n.push v inbox m count).Holds P := by
  induction count generalizing n inbox with
  | zero => exact h
  | succ count ih =>
      have hmore : ∀ m' ∈ (inbox.push m).messages, P m'.block := fun m' hm' =>
        (List.mem_append.mp hm').elim (hinbox m') fun hlast => List.mem_singleton.mp hlast ▸ hm
      exact ih (h.setInbox v hmore) hmore

theorem Holds.drain {n : Network σ} (h : n.Holds P) (v : ValidatorId) :
    (∀ m ∈ (n.drain v).1, P m.block) ∧ (n.drain v).2.Holds P := by
  unfold Network.drain
  cases hget : n.inboxes.get? v with
  | none => exact ⟨by simp, h⟩
  | some inbox =>
      have hempty : ∀ m ∈ Inbox.empty.messages, P m.block := by simp [Inbox.empty]
      exact ⟨h _ (Table.mem_entries_of_get? hget), h.setInbox v hempty⟩

-- What is carried is the message without votes, if anything.
theorem agrees_of_carry {c : NetworkConfig} {m m' : Message} (h : carry c m = .ok m') :
    m'.block.Agrees m.block := by
  unfold carry at h
  split at h
  · rw [Message.eq_of_decode_encode h]
    exact Block.withoutVotes_agrees _
  · cases h
    exact .rfl

variable [WordSource σ]

theorem inboxes_copies (n : Network σ) (source target : ValidatorId) :
    (n.copies source target).2.inboxes = n.inboxes := by
  unfold copies
  split
  · rfl
  · simp only
    split
    · rfl
    · split <;> rfl

theorem Holds.deliver {n : Network σ} (h : n.Holds P) (source : ValidatorId)
    {arriving : Except CodecError Message} (harriving : ∀ m, arriving = .ok m → P m.block)
    (targets : List ValidatorId) : (n.deliver source arriving targets).2.Holds P := by
  induction targets generalizing n with
  | nil => exact h
  | cons target rest ih =>
      unfold Network.deliver
      cases hget : n.inboxes.get? target with
      | none => exact h
      | some inbox =>
          have hinboxes := n.inboxes_copies source target
          have hnext : (n.copies source target).2.Holds P := by
            unfold Holds
            rw [hinboxes]
            exact h
          have hinbox := h _ (Table.mem_entries_of_get? hget)
          rcases hcopies : n.copies source target with ⟨count, next⟩
          rw [hcopies] at hnext
          cases count with
          | zero => exact ih hnext
          | succ count =>
              cases harrives : arriving with
              | error e => exact hnext
              | ok m =>
                  rw [harrives] at ih
                  exact ih (hnext.push target hinbox (harriving m harrives) _)

theorem Holds.send (hP : ∀ a b : Block, a.Agrees b → P b → P a) {n : Network σ} (h : n.Holds P)
    (source : ValidatorId) (targets : List ValidatorId) {m : Message} (hm : P m.block) :
    (n.send source targets m).2.Holds P := by
  unfold Network.send
  split
  · exact h
  · have hcounted : { n with stats := { n.stats with sent := n.stats.sent + 1 } }.Holds P := h
    exact hcounted.deliver source (fun m' hm' => hP _ _ (agrees_of_carry hm') hm) targets

end Network

namespace Committee

variable {σ : Type} {P : Block → Prop}

-- All that the workers are about to send.
def held (c : Committee σ) : List Message :=
  c.outbox.entries.flatMap fun e => messagesOf e.2.2

-- Whether all blocks that are under way or stored are of some kind.
structure Sourced (P : Block → Prop) (c : Committee σ) : Prop where
  network : c.network.Holds P
  outbox : ∀ e ∈ c.outbox.entries, ∀ a ∈ e.2.2, a.Carries P
  replicas : ∀ r ∈ c.replicas, r.Stores P

theorem Sourced.mono {Q : Block → Prop} (hPQ : ∀ b, P b → Q b) {c : Committee σ}
    (h : c.Sourced P) : c.Sourced Q :=
  ⟨h.network.mono hPQ, fun e he a ha => (h.outbox e he a ha).mono hPQ,
    fun r hr => (h.replicas r hr).mono hPQ⟩

theorem Sourced.held {c : Committee σ} (h : c.Sourced P) {m : Message} (hm : m ∈ c.held) :
    P m.block := by
  obtain ⟨e, he, hm⟩ := List.mem_flatMap.mp hm
  obtain ⟨a, ha, hmessage⟩ := mem_messagesOf.mp hm
  exact (h.outbox e he a ha).of_message hmessage

theorem Sourced.takeDelivered {c : Committee σ} (h : c.Sourced P) : c.takeDelivered.Sourced P :=
  ⟨h.network, h.outbox, List.forall_mem_map.mpr fun r hr => (h.replicas r hr).takeDelivered⟩

theorem mem_put {r r' : Replica} {rs : List Replica} (h : r' ∈ put r rs) : r' = r ∨ r' ∈ rs := by
  induction rs with
  | nil => cases h
  | cons s rest ih =>
      unfold put at h
      split at h
      · exact (List.mem_cons.mp h).imp id (List.mem_cons_of_mem _)
      · rcases List.mem_cons.mp h with rfl | h
        · exact .inr List.mem_cons_self
        · exact (ih h).imp id (List.mem_cons_of_mem _)

theorem map_id_put {r : Replica} {rs : List Replica} :
    (put r rs).map (·.id) = rs.map (·.id) := by
  induction rs with
  | nil => rfl
  | cons s rest ih =>
      unfold put
      split
      · rename_i hs
        rw [List.map_cons, List.map_cons, hs]
      · rw [List.map_cons, List.map_cons, ih]

theorem members_startRun (c : Committee σ) (view : LedgerView) :
    (c.startRun view).members = c.members := by
  simp only [members, startRun, List.map_map]
  rfl

theorem members_takeDelivered (c : Committee σ) : c.takeDelivered.members = c.members := by
  simp only [members, takeDelivered, List.map_map]
  rfl

theorem mem_of_find? {c : Committee σ} {v : ValidatorId} {r : Replica} (h : c.find? v = some r) :
    r ∈ c.replicas ∧ r.id = v :=
  ⟨List.mem_of_find?_eq_some h, by simpa using List.find?_some h⟩

variable [WordSource σ]

theorem holds_perform (hP : ∀ a b : Block, a.Agrees b → P b → P a) {n : Network σ}
    (h : n.Holds P) (self : ValidatorId) {actions : List Action}
    (hactions : ∀ a ∈ actions, a.Carries P) : (perform self actions n).Holds P := by
  induction actions generalizing n with
  | nil => exact h
  | cons a rest ih =>
      obtain ⟨ha, hrest⟩ := List.forall_mem_cons.mp hactions
      cases a with
      | broadcast m => exact ih (h.send hP self _ ha) hrest
      | sendToLeader m => exact ih (h.send hP self _ ha) hrest
      | delivered d height => exact ih h hrest

-- All that an event can do: time goes on, a worker sends what it holds, or hands its validator what
-- waits in the inbox.
inductive Moved (c : Committee σ) : Committee σ → Prop
  | stay : Moved c c
  | tick : Moved c { c with now := c.now + 1 }
  | send (v : ValidatorId) : Moved c (c.send v)
  | handle {v : ValidatorId} {r : Replica} {batch : List Message} {network : Network σ}
      (wake : Nat) (found : c.find? v = some r) (drained : c.network.drain v = (batch, network)) :
      Moved c { c with
        network
        replicas := put (r.handleBatch batch).2 c.replicas
        outbox := c.outbox.set v (wake, (r.handleBatch batch).1) }

theorem moved_step (c : Committee σ) (e : Event) : c.Moved (c.step e) := by
  cases e with
  | tick => exact .tick
  | turn v =>
      change c.Moved (c.turn v)
      unfold turn
      split
      · unfold handle
        split
        · exact .stay
        · rename_i r hfound
          split
          · exact .stay
          · rename_i batch network _ hdrained
            exact .handle (c.wakeTime (r.handleBatch batch).2 (r.handleBatch batch).1) hfound
              hdrained
      · split
        · exact .send v
        · exact .stay

theorem replicas_send (c : Committee σ) (v : ValidatorId) : (c.send v).replicas = c.replicas := by
  unfold send
  split <;> rfl

theorem members_moved {c c' : Committee σ} (h : c.Moved c') : c'.members = c.members := by
  cases h with
  | stay => rfl
  | tick => rfl
  | send v => exact congrArg (List.map (·.id)) (c.replicas_send v)
  | handle wake found drained => exact map_id_put

theorem members_runUntil (c : Committee σ) (done : Committee σ → Bool) (events : List Event) :
    (c.runUntil done events).members = c.members := by
  induction events generalizing c with
  | nil => rfl
  | cons e rest ih =>
      unfold runUntil
      split
      · rfl
      · exact (ih (c.step e)).trans (members_moved (c.moved_step e))

theorem members_follow (c : Committee σ) (done : Committee σ → Bool) (s : Schedule) :
    (c.follow done s).members = c.members := by
  obtain ⟨events, times⟩ := s
  unfold follow
  induction times generalizing c with
  | zero => rfl
  | succ n ih =>
      unfold repeatUntil
      split
      · rfl
      · exact (ih _).trans (c.members_runUntil done events)

-- All that a proposal does, be it sent or not: the worker sends what it holds, and the replica has
-- answered.
theorem propose_cases (c : Committee σ) (v : ValidatorId) (b : Block) :
    (c.propose v b).2 = c.send v ∨
      ∃ r network, c.find? v = some r ∧
        (network = (c.send v).network ∨
          network = perform v (r.answer (.propose b)).1 (c.send v).network) ∧
        (c.propose v b).2 = { c.send v with
          network
          replicas := put (r.answer (.propose b)).2 c.replicas } := by
  have hreplicas := c.replicas_send v
  have hfind : (c.send v).find? v = c.find? v := by rw [find?, hreplicas, find?]
  unfold propose
  simp only [hfind]
  cases hr : c.find? v with
  | none => exact .inl rfl
  | some r =>
      rcases hanswer : r.propose b with ⟨e | actions, r'⟩
      · exact .inr ⟨r, _, rfl, .inl rfl, by simp only [Replica.answer, hanswer, hreplicas]⟩
      · exact .inr ⟨r, _, rfl, .inr rfl, by simp only [Replica.answer, hanswer, hreplicas]⟩

theorem members_propose (c : Committee σ) (v : ValidatorId) (b : Block) :
    (c.propose v b).2.members = c.members := by
  rcases c.propose_cases v b with hsame | ⟨r, network, -, -, hnext⟩
  · rw [hsame, members, replicas_send, members]
  · rw [hnext]
    exact map_id_put

namespace Sourced

variable {c c' : Committee σ}

theorem send (hP : ∀ a b : Block, a.Agrees b → P b → P a) (h : c.Sourced P) (v : ValidatorId) :
    (c.send v).Sourced P := by
  unfold Committee.send
  split
  · exact h
  · rename_i wake actions hget
    have hactions := h.outbox _ (Table.mem_entries_of_get? hget)
    exact ⟨holds_perform hP h.network v hactions,
      fun e he => h.outbox e (List.mem_of_mem_filter he), h.replicas⟩

theorem moved (hP : ∀ a b : Block, a.Agrees b → P b → P a) (h : c.Sourced P)
    (hmoved : c.Moved c') : c'.Sourced P := by
  cases hmoved with
  | stay => exact h
  | tick => exact ⟨h.network, h.outbox, h.replicas⟩
  | send v => exact h.send hP v
  | @handle v r batch network wake found drained =>
      have hdrain := h.network.drain v
      rw [drained] at hdrain
      obtain ⟨hbatch, hnetwork⟩ := hdrain
      have hr := h.replicas r (mem_of_find? found).1
      obtain ⟨hstores, hactions⟩ := hr.answer hP (c := .batch batch) hbatch
      refine ⟨hnetwork, fun e he => ?_, fun r' hr' => ?_⟩
      · rcases Table.mem_entries_set he with hnew | hold
        · exact hnew ▸ hactions
        · exact h.outbox e hold
      · rcases mem_put hr' with rfl | hold
        · exact hstores
        · exact h.replicas r' hold

theorem propose (hP : ∀ a b : Block, a.Agrees b → P b → P a) (h : c.Sourced P) (v : ValidatorId)
    {b : Block} (hb : P b) : (c.propose v b).2.Sourced P := by
  have hsent := h.send hP v
  rcases c.propose_cases v b with hsame | ⟨r, network, hr, hnetwork, hnext⟩
  · exact hsame ▸ hsent
  · obtain ⟨hstores, hactions⟩ :=
      (h.replicas r (mem_of_find? hr).1).answer hP (c := .propose b) fun _ => hb
    rw [hnext]
    refine ⟨?_, hsent.outbox, fun r' hr' => ?_⟩
    · rcases hnetwork with rfl | rfl
      · exact hsent.network
      · exact holds_perform hP hsent.network v hactions
    · rcases mem_put hr' with rfl | hold
      · exact hstores
      · exact h.replicas r' hold

end Sourced

end Committee

end QuorumLedger
