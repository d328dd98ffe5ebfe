import QuorumLedger.Proofs.Consensus.Delivery
import QuorumLedger.Proofs.Consensus.FreshKeys
import QuorumLedger.Proofs.Consensus.Prompt
import QuorumLedger.Proofs.OneTime.Trust

namespace QuorumLedger

-- A known key that gets the value it has leaves a table as it was.
theorem Table.set_of_get? {κ α : Type} [DecidableEq κ] {t : Table κ α} {k : κ} {a : α}
    (h : t.get? k = some a) : t.set k a = t := by
  obtain ⟨entries⟩ := t
  change find k entries = some a at h
  refine congrArg Table.mk ?_
  induction entries with
  | nil => cases h
  | cons e rest ih =>
      obtain ⟨l, b⟩ := e
      by_cases hl : l = k
      · have hb : b = a := by simpa [find, hl] using h
        simp [put, hl, hb]
      · have hrest : put k a rest = rest := ih (by simpa [find, hl] using h)
        simp [put, hl, hrest]

namespace Message

-- Whether the seal does not fit the key that the message itself discloses.
def MovesOn (m : Message) : Prop :=
  ∀ s key, m.block.sealedBy = some s → s.nextKey = some key →
    key.verify (Block.sealDigest m.blockId s).toList s.signature = .invalid

-- The last of the messages that a validator sealed.
def lastOf (u : ValidatorId) (messages : List Message) : Option Message :=
  (messages.filter fun m => m.signer? = some u).getLast?

theorem lastOf_append_singleton (u : ValidatorId) (messages : List Message) (m : Message) :
    lastOf u (messages ++ [m]) = if m.signer? = some u then some m else lastOf u messages := by
  by_cases h : m.signer? = some u <;> simp [lastOf, h]

end Message

open Message (lastOf)
open QuorumLedger.Action (deliveredIn)

-- A message that arrives for the first time or once more.
inductive Arrival where
  | first (m : Message)
  | again (m : Message)
  deriving DecidableEq

namespace Arrival

def message : Arrival → Message
  | first m => m
  | again m => m

def first? : Arrival → Option Message
  | first m => some m
  | again _ => none

-- Whether what arrives is no copy, or one of the message that came last from the signer. A message
-- without a seal has no signer.
def InPlace (before : List Message) : Arrival → Prop
  | first _ => True
  | again m => ∀ u, m.signer? = some u → lastOf u before = some m

-- Whether no other message of its signer comes between a message and a copy.
def InOrder : (before : List Message) → List Arrival → Prop
  | _, [] => True
  | before, a :: rest => a.InPlace before ∧ InOrder (before ++ [a.message]) rest

theorem inOrder_append {before : List Message} {xs ys : List Arrival} :
    InOrder before (xs ++ ys) ↔
      InOrder before xs ∧ InOrder (before ++ xs.map message) ys := by
  induction xs generalizing before with
  | nil => simp [InOrder]
  | cons a rest ih => simp [InOrder, ih, and_assoc]

end Arrival

-- A batch that may have copies in it, or an extra one that has nothing else.
inductive Handover where
  | batch (arrivals : List Arrival)
  | extra (copies : List Message)

namespace Handover

def arrivals : Handover → List Arrival
  | batch arrivals => arrivals
  | extra copies => copies.map .again

-- The messages with all copies.
def doubled (h : Handover) : List Message :=
  h.arrivals.map Arrival.message

-- The batch without copies, if it is there without them.
def original? : Handover → Option (List Message)
  | batch arrivals => some (arrivals.filterMap Arrival.first?)
  | extra _ => none

theorem first?_extra (copies : List Message) :
    (extra copies).arrivals.filterMap Arrival.first? = [] := by
  simp [arrivals, List.filterMap_map, Arrival.first?]

end Handover

-- What is recorded for those that sealed any of the messages.
def KeyChain.UpTo (before : List Message) (c : KeyChain ValidatorId) : Prop :=
  ∀ u m, lastOf u before = some m → c.recorded.get? u = some m.nextKey?

theorem KeyChain.UpTo.next {before : List Message} {c : KeyChain ValidatorId}
    (h : c.UpTo before) (m : Message) : (m.block.checkSeal c).2.UpTo (before ++ [m]) := by
  intro u m' hm'
  rw [Message.lastOf_append_singleton] at hm'
  rw [get?_checkSeal]
  split at hm'
  · next hu =>
    rw [if_pos hu, Option.some.inj hm']
  · next hu =>
    rw [if_neg hu]
    exact h u m' hm'

theorem KeyChain.UpTo.follow {before : List Message} {c : KeyChain ValidatorId}
    (h : c.UpTo before) (messages : List Message) :
    (c.follow messages).UpTo (before ++ messages) := by
  induction messages generalizing before c with
  | nil => simpa [KeyChain.follow] using h
  | cons m rest ih =>
      have hnext := ih (h.next m)
      rw [List.append_assoc] at hnext
      exact hnext

namespace Replica

variable {r : Replica}

-- A copy in its place is refused, and its key is the one recorded already.
theorem onMessage_again {before : List Message} (h : r.keyChain.UpTo before) {m : Message}
    (hmoves : m.MovesOn) (hplace : (Arrival.again m).InPlace before) :
    r.onMessage m = (false, r) := by
  have hrefused : ∀ s, ¬ r.Accepts m s := by
    intro s hs
    have hsigner : m.signer? = some s.signer := by simp [Message.signer?, hs.sealedBy]
    have hrecorded := h s.signer m (hplace s.signer hsigner)
    have hnext : m.nextKey? = s.nextKey := by simp [Message.nextKey?, hs.sealedBy]
    have haccepted := hs.accepted
    unfold KeyChain.check at haccepted
    rw [hrecorded, hnext] at haccepted
    cases hkey : s.nextKey with
    | none =>
        rw [hkey] at haccepted
        cases haccepted
    | some key =>
        rw [hkey] at haccepted
        simp only [hmoves s key hs.sealedBy hkey] at haccepted
        cases haccepted
  have hchain : (m.block.checkSeal r.keyChain).2 = r.keyChain := by
    cases hs : m.block.sealedBy with
    | none => simp [Block.checkSeal, hs]
    | some s =>
        have hsigner : m.signer? = some s.signer := by simp [Message.signer?, hs]
        have hnext : m.nextKey? = s.nextKey := by simp [Message.nextKey?, hs]
        have hrecorded := h s.signer m (hplace s.signer hsigner)
        rw [hnext] at hrecorded
        simp only [Block.checkSeal, hs, KeyChain.checkAndAdvance, KeyChain.advance,
          Table.set_of_get? hrecorded]
  rw [onMessage_of_not_accepts hrefused, following, hchain]

theorem onMessages_arrivals {before : List Message} (h : r.keyChain.UpTo before)
    {arrivals : List Arrival} (hmoves : ∀ a ∈ arrivals, a.message.MovesOn)
    (horder : Arrival.InOrder before arrivals) :
    r.onMessages (arrivals.map Arrival.message) =
      r.onMessages (arrivals.filterMap Arrival.first?) := by
  induction arrivals generalizing before r with
  | nil => rfl
  | cons a rest ih =>
      obtain ⟨hmoves, hrest⟩ := List.forall_mem_cons.mp hmoves
      obtain ⟨hplace, horder⟩ := horder
      have hnext : (r.onMessage a.message).2.keyChain.UpTo (before ++ [a.message]) := by
        rw [onMessage_keyChain]
        exact h.next a.message
      have hlater := ih hnext hrest horder
      cases a with
      | first m => exact hlater
      | again m =>
          rw [show (Arrival.again m).message = m from rfl] at hlater hmoves
          rw [onMessage_again h hmoves hplace] at hlater
          change (r.onMessage m).2.onMessages _ = _
          rw [onMessage_again h hmoves hplace]
          exact hlater

-- A batch leads to what it leads to without copies.
theorem handleBatch_arrivals {before : List Message} (h : r.keyChain.UpTo before)
    {arrivals : List Arrival} (hmoves : ∀ a ∈ arrivals, a.message.MovesOn)
    (horder : Arrival.InOrder before arrivals) :
    r.handleBatch (arrivals.map Arrival.message) =
      r.handleBatch (arrivals.filterMap Arrival.first?) := by
  have hcleared : { r with tally := r.tally.clearSend }.keyChain.UpTo before := h
  unfold handleBatch processBatch
  rw [onMessages_arrivals h hmoves horder, onMessages_arrivals hcleared hmoves horder]

section Idle

theorem declareReady_of_mem {d : Digest} (h : d ∈ r.tally.readySent) (round : UInt16) :
    r.declareReady d round = ([], r) := by
  simp [declareReady, Tally.markReady, h]

theorem readyFromEchoes_of_mem {ds : List Digest} (h : ∀ d ∈ ds, d ∈ r.tally.readySent) :
    r.readyFromEchoes ds = ([], r) := by
  induction ds with
  | nil => rfl
  | cons d rest ih =>
      obtain ⟨hd, hrest⟩ := List.forall_mem_cons.mp h
      simp only [readyFromEchoes, declareReady_of_mem hd, ih hrest, List.append_nil]

theorem readyFromReadies_of_mem {counts : List (Digest × Nat)}
    (hsent : ∀ e ∈ counts, r.thresholds.readyQuorum ≤ e.2 → e.1 ∈ r.tally.readySent)
    (hfew : ∀ e ∈ counts, ¬ r.thresholds.delivers e.2) :
    r.readyFromReadies counts = ([], r) := by
  induction counts with
  | nil => rfl
  | cons e rest ih =>
      obtain ⟨hd, hrest⟩ := List.forall_mem_cons.mp hsent
      obtain ⟨hfew, hfewRest⟩ := List.forall_mem_cons.mp hfew
      have hnow : r.amplify e.1 e.2 = ([], r) := by
        unfold amplify
        split
        · exact declareReady_of_mem (hd ‹_›) _
        · rfl
      rw [readyFromReadies_cons, hnow, if_neg hfew, ih hrest hfewRest]
      rfl

-- What is settled stays as it is at the end of another round.
theorem Settled.endOfRound (h : r.Settled) (hproper : r.tally.Proper) :
    r.endOfRound = ([], r) := by
  have hechoes : r.readyFromEchoes (r.tally.echoed r.thresholds.echoQuorum) = ([], r) := by
    refine readyFromEchoes_of_mem fun d hd => ?_
    obtain ⟨hpos, hquorum⟩ := hproper.le_echoCount hd
    exact h.echoes d hpos hquorum
  have hreadies : r.readyFromReadies r.tally.readies.entries = ([], r) := by
    refine readyFromReadies_of_mem (fun e he hquorum => ?_) fun e he => ?_
    · exact h.readies e.1 (hproper.readyCount_of_mem he ▸ hquorum)
    · exact hproper.readyCount_of_mem he ▸ h.undelivered e.1
  simp only [Replica.endOfRound, echoPending, h.pending, hechoes, hreadies, List.append_nil]

theorem handleBatch_nil (hproper : r.tally.Proper) (h : r.isDelivered = false → r.Settled) :
    r.handleBatch [] = ([], r) := by
  unfold handleBatch
  split
  · rfl
  · split
    · rfl
    · rename_i hactive
      have hsettled := h (Bool.eq_false_iff.mpr hactive)
      have hcleared : r.processBatch [] = r := by
        change { r with tally := r.tally.clearSend } = r
        simp only [Tally.clearSend, ← hsettled.pending]
      simp only [hcleared, hsettled.endOfRound hproper, Role.shape_nil]

end Idle

-- Between calls nothing is left to act upon.
theorem settled_answer (hproper : r.tally.Proper) (h : r.isDelivered = false → r.Settled)
    (c : Call) (hend : (r.answer c).2.isDelivered = false) : (r.answer c).2.Settled := by
  have hsame : ∀ signer delivered, { r with signer, delivered }.isDelivered = false →
      { r with signer, delivered }.Settled := fun _ _ hactive =>
    ⟨(h hactive).pending, (h hactive).echoes, (h hactive).readies, (h hactive).undelivered⟩
  cases c with
  | startRun view => exact settled_startRun r view
  | takeDelivered => exact hsame r.signer [] hend
  | propose b =>
      obtain ⟨signer, hnext⟩ := r.propose_snd b
      rw [hnext] at hend ⊢
      exact hsame signer r.delivered hend
  | batch messages =>
      rw [answer_batch hproper] at hend ⊢
      split at hend
      · rename_i hrole
        rw [if_pos hrole]
        exact settled_outcome hend
      · rename_i hrole
        rw [if_neg hrole]
        exact h hend

theorem handleBatches_of_crash (h : r.role.participates = false) (batches : List (List Message)) :
    r.handleBatches batches = ([], r) := by
  induction batches with
  | nil => rfl
  | cons batch rest ih => simp [handleBatches, handleBatch_of_crash h, ih]

-- What stays true of a replica that takes part and read some messages.
structure Abreast (before : List Message) (r : Replica) : Prop where
  participates : r.role.participates = true
  stores : r.Stores fun _ => True
  settled : r.isDelivered = false → r.Settled
  keys : r.keyChain.UpTo before

theorem Abreast.handleBatch {before : List Message} (h : r.Abreast before)
    (batch : List Message) : (r.handleBatch batch).2.Abreast (before ++ batch) where
  participates := (answer_sameSeat h.stores.proper (.batch batch)).role ▸ h.participates
  stores := h.stores.answer_any (.batch batch)
  settled := settled_answer h.stores.proper h.settled (.batch batch)
  keys := by
    rw [handleBatch_of_participates h.stores.proper h.participates]
    dsimp only
    rw [outcome_keyChain h.stores.proper]
    exact h.keys.follow batch

theorem Abreast.handleBatches_map_doubled {before : List Message} (h : r.Abreast before)
    {handovers : List Handover}
    (hmoves : ∀ a ∈ handovers.flatMap Handover.arrivals, a.message.MovesOn)
    (horder : Arrival.InOrder before (handovers.flatMap Handover.arrivals)) :
    r.handleBatches (handovers.map Handover.doubled) =
      r.handleBatches (handovers.filterMap Handover.original?) := by
  induction handovers generalizing before r with
  | nil => rfl
  | cons now rest ih =>
      obtain ⟨hmoves, hrest⟩ := List.forall_mem_append.mp hmoves
      obtain ⟨horder, hlater⟩ := Arrival.inOrder_append.mp horder
      have hnow : r.handleBatch now.doubled =
          r.handleBatch (now.arrivals.filterMap Arrival.first?) :=
        handleBatch_arrivals h.keys hmoves horder
      have hnext := ih (h.handleBatch now.doubled) hrest hlater
      cases now with
      | batch arrivals =>
          rw [hnow] at hnext
          simp only [List.map_cons, List.filterMap_cons, Handover.original?, Replica.handleBatches,
            hnow]
          rw [hnext]
          rfl
      | extra copies =>
          -- nothing in the extra batch counts, and nothing was left to do
          rw [Handover.first?_extra, handleBatch_nil h.stores.proper h.settled] at hnow
          rw [hnow] at hnext
          simp only [List.map_cons, List.filterMap_cons, Handover.original?, Replica.handleBatches,
            hnow, hnext, List.nil_append]

theorem settled_after (s : Seat) (v : ValidatorId) (calls : List Call) :
    ((s.replica v).after calls).isDelivered = false → ((s.replica v).after calls).Settled := by
  have h : ∀ r : Replica, r.Stores (fun _ => True) → (r.isDelivered = false → r.Settled) →
      (r.after calls).isDelivered = false → (r.after calls).Settled := by
    induction calls with
    | nil => exact fun _ _ hr => hr
    | cons c rest ih =>
        intro r hr hsettled
        exact ih _ (hr.answer_any c) (settled_answer hr.proper hsettled c)
  exact h _ (stores_create _ _ _ _ _)
    fun _ => settled_startRun (s.replica v) (s.replica v).view

-- A second copy is checked against the key that the first one disclosed, does not fit it, and
-- leaves the same key recorded. A round without new votes has nothing left to do. So the votes and
-- deliveries are the same, except for the keys of another signer, and so is all but the signer in
-- the end.
theorem handleBatches_doubled (s : Seat) (v : ValidatorId) (calls : List Call)
    (handovers : List Handover)
    (hmoves : ∀ a ∈ handovers.flatMap Handover.arrivals, a.message.MovesOn)
    (horder : Arrival.InOrder [] (handovers.flatMap Handover.arrivals)) :
    let r := (s.replica v).after calls
    let once := r.handleBatches (handovers.filterMap Handover.original?)
    r.handleBatches (handovers.map Handover.doubled) = once ∧
      ∀ signer, r.signer.FailsAlike signer →
        let twice := { r with signer }.handleBatches (handovers.map Handover.doubled)
        twice.1.map Action.unkeyed = once.1.map Action.unkeyed ∧
          ∃ last, twice.2 = { once.2 with signer := last } := by
  intro r once
  have hsame : r.handleBatches (handovers.map Handover.doubled) = once := by
    cases hrole : r.role.participates with
    | false => exact (handleBatches_of_crash hrole _).trans (handleBatches_of_crash hrole _).symm
    | true =>
        have habreast : r.Abreast [] :=
          ⟨hrole, (stores_after s v calls).1, settled_after s v calls, fun _ _ h => by cases h⟩
        exact habreast.handleBatches_map_doubled hmoves horder
  refine ⟨hsame, fun signer hfails => ?_⟩
  have halike : r.Alike { r with signer } := ⟨signer, hfails, rfl⟩
  have hrekeyed := halike.handleBatches (handovers.map Handover.doubled)
  rw [hsame] at hrekeyed
  obtain ⟨last, -, hlast⟩ := hrekeyed.replica
  exact ⟨hrekeyed.actions, last, hlast⟩

-- A READY under a signature that nothing fits.
def unfitting (u : ValidatorId) : Message :=
  ⟨.ready, { Block.blank with
    sealedBy := some ⟨u, KeyChain.blankSignature, some KeyChain.lostKey⟩ }, u, Round.readyFromEcho⟩

theorem movesOn_unfitting (u : ValidatorId) : (unfitting u).MovesOn := by
  intro s key hs hkey
  obtain rfl := Option.some.inj hs
  obtain rfl := Option.some.inj hkey
  exact KeyChain.verify_lostKey _

-- The second of two READYs comes again once the block is delivered.
def repeating : List Handover :=
  [.batch [.first (unfitting ⟨0⟩), .again (unfitting ⟨0⟩), .first (unfitting ⟨1⟩)],
    .extra [unfitting ⟨1⟩]]

theorem inOrder_repeating : Arrival.InOrder [] (repeating.flatMap Handover.arrivals) := by
  have hsigner : ∀ u, (unfitting u).signer? = some u := fun _ => rfl
  simp [repeating, Handover.arrivals, Arrival.InOrder, Arrival.InPlace, Arrival.message, lastOf,
    hsigner]

theorem handleBatches_doubled_pair :
    (∀ a ∈ repeating.flatMap Handover.arrivals, a.message.MovesOn) ∧
      (pairSeat.replica ⟨2⟩).signer.FailsAlike (.steady (.ofSeed 7)) ∧
      deliveredIn ((pairSeat.replica ⟨2⟩).handleBatches (repeating.map Handover.doubled)).1 =
        [Block.blank.id] ∧
      ({ pairSeat.replica ⟨2⟩ with signer := .steady (.ofSeed 7) }.handleBatches
          (repeating.map Handover.doubled)).1.map Action.unkeyed =
        ((pairSeat.replica ⟨2⟩).handleBatches
          (repeating.filterMap Handover.original?)).1.map Action.unkeyed := by
  have hmoves : ∀ a ∈ repeating.flatMap Handover.arrivals, a.message.MovesOn := by
    simp [repeating, Handover.arrivals, Arrival.message, movesOn_unfitting]
  have hfails : (pairSeat.replica ⟨2⟩).signer.FailsAlike (.steady (.ofSeed 7)) :=
    (Signer.steady_supplied _).failsAlike (Signer.steady_supplied _)
  have hdelivered : deliveredIn ((pairSeat.replica ⟨2⟩).handleBatches
      (repeating.filterMap Handover.original?)).1 = [Block.blank.id] := by decide +kernel
  obtain ⟨hsame, hkeys⟩ :=
    handleBatches_doubled pairSeat ⟨2⟩ [] repeating hmoves inOrder_repeating
  refine ⟨hmoves, hfails, ?_, (hkeys _ hfails).1⟩
  rw [← hdelivered]
  exact congrArg (fun x => deliveredIn x.1) hsame

end Replica

end QuorumLedger
