import QuorumLedger.Proofs.Consensus.Calls
import QuorumLedger.Proofs.Ledger.Content

namespace QuorumLedger

-- What an action says of blocks: one that it carries, or the id and height of one.
def Action.Carries (P : Block → Prop) : Action → Prop
  | .broadcast m => P m.block
  | .sendToLeader m => P m.block
  | .delivered d height => ∃ b, P b ∧ b.id = d ∧ b.height = height

namespace Action

theorem Carries.mono {P Q : Block → Prop} (hPQ : ∀ b, P b → Q b) {a : Action}
    (h : a.Carries P) : a.Carries Q := by
  cases a with
  | broadcast m => exact hPQ _ h
  | sendToLeader m => exact hPQ _ h
  | delivered d height =>
      obtain ⟨b, hb, hid⟩ := h
      exact ⟨b, hPQ b hb, hid⟩

theorem Carries.of_message {P : Block → Prop} {a : Action} {m : Message} (h : a.Carries P)
    (hm : a.message? = some m) : P m.block := by
  cases a with
  | broadcast m' => exact Option.some.inj hm ▸ h
  | sendToLeader m' => exact Option.some.inj hm ▸ h
  | delivered d height => cases hm

end Action

namespace Replica

-- Stored blocks stand under their ids, and whatever is voted on or delivered is stored.
structure Stores (P : Block → Prop) (r : Replica) : Prop where
  proper : r.tally.Proper
  blocks : ∀ d b, r.blocks.get? d = some b → b.id = d ∧ P b
  pending : ∀ d, r.tally.pendingSend = some d → (r.blocks.get? d).isSome
  echoes : ∀ d, 0 < r.tally.echoCount d → (r.blocks.get? d).isSome
  readies : ∀ d, 0 < r.tally.readyCount d → (r.blocks.get? d).isSome
  delivered : ∀ d ∈ r.delivered, (r.blocks.get? d).isSome

variable {P : Block → Prop}

theorem stores_create (id : ValidatorId) (role : Role) (thresholds : Thresholds)
    (committee : List ValidatorId) (signer : Signer) :
    (create id role thresholds committee signer).Stores P where
  proper := Tally.proper_start
  blocks := by simp [create]
  pending := by simp [create, Tally.start]
  echoes := by simp [create, Tally.start, Tally.echoCount]
  readies := by simp [create, Tally.start, Tally.readyCount]
  delivered := by simp [create]

namespace Stores

variable {r r' : Replica}

theorem startRun (h : r.Stores P) (view : LedgerView) : (r.startRun view).Stores P where
  proper := Tally.proper_start
  blocks := by
    intro d b hb
    simp only [Replica.startRun, Table.get?_retain] at hb
    split at hb
    · exact h.blocks d b hb
    · cases hb
  pending := by simp [Replica.startRun, Tally.start]
  echoes := by simp [Replica.startRun, Tally.start, Tally.echoCount]
  readies := by simp [Replica.startRun, Tally.start, Tally.readyCount]
  delivered := by
    intro d hd
    have hkept : decide (d ∈ r.delivered) = true := decide_eq_true hd
    simp only [Replica.startRun, Table.get?_retain, hkept, if_true]
    exact h.delivered d hd

theorem takeDelivered (h : r.Stores P) : r.takeDelivered.2.Stores P where
  proper := h.proper
  blocks := h.blocks
  pending := h.pending
  echoes := h.echoes
  readies := h.readies
  delivered := by simp [Replica.takeDelivered]

theorem following (h : r.Stores P) (m : Message) : (r.following m).Stores P :=
  ⟨h.proper, h.blocks, h.pending, h.echoes, h.readies, h.delivered⟩

theorem withSigner (h : r.Stores P) (signer : Signer) : { r with signer }.Stores P :=
  ⟨h.proper, h.blocks, h.pending, h.echoes, h.readies, h.delivered⟩

theorem clearSend (h : r.Stores P) : { r with tally := r.tally.clearSend }.Stores P :=
  ⟨⟨h.proper.echoes, h.proper.readies, h.proper.positive⟩, h.blocks, by simp [Tally.clearSend],
    h.echoes, h.readies, h.delivered⟩

theorem withReadySent (h : r.Stores P) (readySent : List Digest) :
    { r with tally := { r.tally with readySent } }.Stores P :=
  ⟨⟨h.proper.echoes, h.proper.readies, h.proper.positive⟩, h.blocks, h.pending, h.echoes,
    h.readies, h.delivered⟩

-- The first copy of a block stays, with one more vote.
theorem counting (hP : ∀ a b : Block, a.Agrees b → P b → P a) (h : r.Stores P) {m : Message}
    {s : Seal} (hm : P m.block) : (r.counting m s).Stores P := by
  have hkeep : ∀ d, (r.blocks.get? d).isSome → ((r.counting m s).blocks.get? d).isSome := by
    intro d hd
    simp only [Replica.counting, Table.get?_set]
    split <;> simp [hd]
  have hnew : ((r.counting m s).blocks.get? m.blockId).isSome := by
    simp [Replica.counting]
  constructor
  · exact h.proper.take _ _
  · intro d b hb
    simp only [Replica.counting, Table.get?_set] at hb
    split at hb
    · rename_i hd
      obtain rfl := Option.some.inj hb
      have hbase : ((r.blocks.get? m.blockId).getD m.block.withoutVotes).id = d ∧
          P ((r.blocks.get? m.blockId).getD m.block.withoutVotes) := by
        cases hget : r.blocks.get? m.blockId with
        | none => exact ⟨hd, hP _ _ m.block.withoutVotes_agrees hm⟩
        | some b => exact ⟨(h.blocks _ b hget).1.trans hd, (h.blocks _ b hget).2⟩
      exact ⟨hbase.1, hP _ _ (Block.collect_agrees _ _) hbase.2⟩
    · exact h.blocks d b hb
  · intro d hd
    simp only [Replica.counting, Tally.pendingSend_take] at hd
    split at hd
    · exact Option.some.inj hd ▸ hnew
    · exact hkeep d (h.pending d hd)
  · intro d hd
    simp only [Replica.counting, Tally.echoCount_take] at hd
    split at hd
    · rename_i hk
      exact hk.2 ▸ hnew
    · exact hkeep d (h.echoes d hd)
  · intro d hd
    simp only [Replica.counting, Tally.readyCount_take] at hd
    split at hd
    · rename_i hk
      exact hk.2 ▸ hnew
    · exact hkeep d (h.readies d hd)
  · exact fun d hd => hkeep d (h.delivered d hd)

theorem vote (hP : ∀ a b : Block, a.Agrees b → P b → P a) (h : r.Stores P) (kind : MessageKind)
    (d : Digest) (round : UInt16) :
    (r.vote kind d round).2.Stores P ∧ ∀ a ∈ (r.vote kind d round).1, a.Carries P := by
  obtain ⟨signer, hnext⟩ := r.vote_snd kind d round
  refine ⟨hnext ▸ h.withSigner signer, ?_⟩
  intro a ha
  obtain ⟨m, b, rfl, hb, hm, -⟩ := mem_vote ha
  exact hP _ _ hm.agrees (h.blocks d b hb).2

-- The vote that a stored block gets.
theorem mem_vote (h : r.Stores P) {kind : MessageKind} {d : Digest} {round : UInt16} {a : Action}
    (ha : a ∈ (r.vote kind d round).1) :
    ∃ m, a = .broadcast m ∧ m.kind = kind ∧ m.blockId = d ∧ m.signer? = some r.id := by
  obtain ⟨m, b, rfl, hb, hm, -⟩ := Replica.mem_vote ha
  exact ⟨m, rfl, hm.kind, hm.agrees.id.trans (h.blocks d b hb).1, hm.signer⟩

-- A block that is delivered has votes, so it is stored and its height is known.
theorem deliver (h : r.Stores P) {d : Digest} (hd : (r.blocks.get? d).isSome) :
    (r.deliver d).2.Stores P ∧ ∀ a ∈ (r.deliver d).1, a.Carries P := by
  constructor
  · refine ⟨h.proper.deliver d, h.blocks, h.pending, ?_, ?_, ?_⟩
    · intro d' hpos
      simp only [Replica.deliver, Tally.echoCount_deliver] at hpos
      split at hpos
      · cases hpos
      · exact h.echoes d' hpos
    · intro d' hpos
      simp only [Replica.deliver, Tally.readyCount_deliver] at hpos
      split at hpos
      · cases hpos
      · exact h.readies d' hpos
    · intro d' hd'
      rcases List.mem_append.mp hd' with hd' | hd'
      · exact h.delivered d' hd'
      · exact List.mem_singleton.mp hd' ▸ hd
  · intro a ha
    obtain rfl := List.mem_singleton.mp ha
    obtain ⟨b, hb⟩ := Option.isSome_iff_exists.mp hd
    obtain ⟨hid, hPb⟩ := h.blocks d b hb
    exact ⟨b, hPb, hid, by simp [hb]⟩

theorem act (hP : ∀ a b : Block, a.Agrees b → P b → P a) (h : r.Stores P) {actions : List Action}
    (hact : Act r actions r') : r'.Stores P ∧ ∀ a ∈ actions, a.Carries P := by
  cases hact with
  | echo active pending => exact h.clearSend.vote hP _ _ _
  | ready active mark call =>
      obtain ⟨-, rfl⟩ := Tally.markReady_eq_true mark
      exact (h.withReadySent _).vote hP _ _ _
  | @deliver d active declared enough =>
      have hpos := pos_of_readyQuorum_le (readyQuorum_le_of_delivers enough)
      exact h.deliver (h.readies d hpos)

-- Whatever READY is called for is stored.
theorem isSome_of_callsReady (h : r.Stores P) {d : Digest} {round : UInt16}
    (hcall : r.CallsReady d round) : (r.blocks.get? d).isSome := by
  rcases hcall with ⟨-, hpos, -⟩ | ⟨-, hquorum⟩
  · exact h.echoes d hpos
  · exact h.readies d (pos_of_readyQuorum_le hquorum)

-- An invariant whose acts may use that blocks are stored.
theorem outcome_induct {I : List Message → List Action → Replica → Prop}
    (hP : ∀ a b : Block, a.Agrees b → P b → P a) (batch seen : List Message) (done : List Action)
    (hstores : r.Stores P) (hbatch : ∀ m ∈ batch, P m.block)
    (hcount : ∀ seen done r m s, I seen done r → r.Accepts m s →
      I (seen ++ [m]) done (r.counting m s))
    (hfollow : ∀ seen done r m, I seen done r → I seen done (r.following m))
    (hact : ∀ seen done r actions r', r.Stores P → I seen done r → Act r actions r' →
      I seen (done ++ actions) r')
    (h : I seen done r)
    (hclear : r.isDelivered = false → I seen done { r with tally := r.tally.clearSend }) :
    (r.outcome batch).2.Stores P ∧
      I (seen ++ r.counted batch) (done ++ (r.outcome batch).1) (r.outcome batch).2 :=
  Replica.outcome_induct (I := fun seen done r => r.Stores P ∧ I seen done r) batch seen done
    (fun seen done r m s hm h hs =>
      ⟨h.1.counting hP (hbatch m hm), hcount seen done r m s h.2 hs⟩)
    (fun seen done r m h => ⟨h.1.following m, hfollow seen done r m h.2⟩)
    (fun seen done r actions r' h hact' =>
      ⟨(h.1.act hP hact').1, hact seen done r actions r' h.1 h.2 hact'⟩)
    hstores.proper ⟨hstores, h⟩ fun hactive => ⟨hstores.clearSend, hclear hactive⟩

theorem outcome (hP : ∀ a b : Block, a.Agrees b → P b → P a) (h : r.Stores P)
    {batch : List Message} (hbatch : ∀ m ∈ batch, P m.block) :
    (r.outcome batch).2.Stores P ∧ ∀ a ∈ (r.outcome batch).1, a.Carries P :=
  h.outcome_induct (I := fun _ done _ => ∀ a ∈ done, a.Carries P) hP batch [] [] hbatch
    (fun _ _ _ _ _ h _ => h) (fun _ _ _ _ h => h)
    (fun _ _ _ _ _ hstores h hact a ha =>
      (List.mem_append.mp ha).elim (h a) ((hstores.act hP hact).2 a))
    (by simp) fun _ => by simp

end Stores

theorem Stores.mono {P Q : Block → Prop} (hPQ : ∀ b, P b → Q b) {r : Replica}
    (h : r.Stores P) : r.Stores Q :=
  ⟨h.proper, fun d b hb => ⟨(h.blocks d b hb).1, hPQ b (h.blocks d b hb).2⟩, h.pending, h.echoes,
    h.readies, h.delivered⟩

theorem Stores.mem_deliveredBlocks {P : Block → Prop} {r : Replica} (h : r.Stores P)
    {b : Block} (hb : b ∈ r.deliveredBlocks) : b.id ∈ r.delivered ∧ P b := by
  obtain ⟨d, hd, hget⟩ := List.mem_filterMap.mp hb
  obtain ⟨rfl, hP⟩ := h.blocks d b hget
  exact ⟨hd, hP⟩

-- The blocks that a call hands over, if the replica's role lets it take them.
def Brings (P : Block → Prop) (r : Replica) : Call → Prop
  | .propose b => r.role.isProposer = true → P b
  | .batch messages => ∀ m ∈ messages, P m.block
  | _ => True

theorem carries_relabel (v : ValidatorId) {a : Action} (h : a.Carries P) :
    (Action.relabel v a).Carries P := by
  cases a <;> exact h

theorem carries_toLeaderOnly {a : Action} (h : a.Carries P) : a.toLeaderOnly.Carries P := by
  cases a <;> exact h

-- Whatever a replica is asked to do, the blocks that it holds, sends and delivers are such that
-- were brought to it.
theorem Stores.answer (hP : ∀ a b : Block, a.Agrees b → P b → P a) {r : Replica} (h : r.Stores P)
    {c : Call} (hc : r.Brings P c) :
    (r.answer c).2.Stores P ∧ ∀ a ∈ (r.answer c).1, a.Carries P := by
  cases c with
  | startRun view => exact ⟨h.startRun view, by simp [Replica.answer]⟩
  | takeDelivered => exact ⟨h.takeDelivered, by simp [Replica.answer]⟩
  | propose b =>
      obtain ⟨signer, hnext⟩ := r.propose_snd b
      refine ⟨hnext ▸ h.withSigner signer, ?_⟩
      intro a ha
      obtain ⟨hrole, m, rfl, hm, -⟩ := mem_propose ha
      exact hP _ _ hm.agrees (hc hrole)
  | batch messages =>
      rw [answer_batch h.proper]
      split
      · obtain ⟨hstores, hactions⟩ := h.outcome hP hc
        exact ⟨hstores, Role.forall_mem_shape (Q := fun a => a.Carries P)
          (fun v _ => carries_relabel v) (fun _ => carries_toLeaderOnly) hactions⟩
      · exact ⟨h, by simp⟩

theorem brings_any (r : Replica) (c : Call) : r.Brings (fun _ => True) c := by
  cases c <;> simp [Brings]

theorem Stores.answer_any {r : Replica} (h : r.Stores fun _ => True) (c : Call) :
    (r.answer c).2.Stores fun _ => True :=
  (h.answer (fun _ _ _ _ => trivial) (r.brings_any c)).1

-- Whatever happened to it, a replica keeps its seat and stores what it votes on.
theorem stores_after (s : Seat) (v : ValidatorId) (calls : List Call) :
    ((s.replica v).after calls).Stores (fun _ => True) ∧
      (s.replica v).SameSeat ((s.replica v).after calls) := by
  have h : ∀ r : Replica, r.Stores (fun _ => True) →
      (r.after calls).Stores (fun _ => True) ∧ r.SameSeat (r.after calls) := by
    induction calls with
    | nil => exact fun r hr => ⟨hr, .rfl⟩
    | cons c rest ih =>
        intro r hr
        obtain ⟨hrest, hseat⟩ := ih _ (hr.answer_any c)
        exact ⟨hrest, (answer_sameSeat hr.proper c).trans hseat⟩
  exact h _ (stores_create _ _ _ _ _)

end Replica

end QuorumLedger
