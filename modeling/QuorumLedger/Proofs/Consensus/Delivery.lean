import Mathlib.Data.List.Forall2
import QuorumLedger.Proofs.Consensus.Stored
import QuorumLedger.Proofs.OneTime.Signing

namespace QuorumLedger

namespace Action

def delivered? : Action → Option Digest
  | .delivered d _ => some d
  | _ => none

theorem delivered?_relabel (v : ValidatorId) (a : Action) :
    (relabel v a).delivered? = a.delivered? := by
  cases a <;> rfl

theorem delivered?_toLeaderOnly (a : Action) : a.toLeaderOnly.delivered? = a.delivered? := by
  cases a <;> rfl

theorem delivered?_of_isSend {a : Action} (h : a.isSend = true) : a.delivered? = none := by
  cases a with
  | broadcast m => rfl
  | sendToLeader m => rfl
  | delivered d height => cases h

-- The hashes of the blocks that actions deliver.
def deliveredIn (actions : List Action) : List Digest :=
  actions.filterMap delivered?

theorem deliveredIn_append (xs ys : List Action) :
    deliveredIn (xs ++ ys) = deliveredIn xs ++ deliveredIn ys :=
  List.filterMap_append

theorem mem_deliveredIn {actions : List Action} {d : Digest} :
    d ∈ deliveredIn actions ↔ ∃ height, .delivered d height ∈ actions := by
  constructor
  · intro h
    obtain ⟨a, ha, hd⟩ := List.mem_filterMap.mp h
    cases a <;> cases hd
    exact ⟨_, ha⟩
  · rintro ⟨height, h⟩
    exact List.mem_filterMap.mpr ⟨_, h, rfl⟩

end Action

open QuorumLedger.Action

-- Faults leave a lone delivery as it is.
theorem Role.deliveredIn_shape (r : Role) (self : ValidatorId) (committee : List ValidatorId)
    {actions : List Action} (hshort : (deliveredIn actions).length ≤ 1) :
    deliveredIn (r.shape self committee actions) = deliveredIn actions := by
  have hperm := r.perm_filterMap_shape delivered?_relabel delivered?_toLeaderOnly
    (fun _ => delivered?_of_isSend) self committee actions
  change (deliveredIn (r.shape self committee actions)).Perm (deliveredIn actions) at hperm
  match hds : deliveredIn actions with
  | [] => exact (hds ▸ hperm).eq_nil
  | [d] => exact List.perm_singleton.mp (hds ▸ hperm)
  | d :: e :: rest => simp [hds] at hshort

theorem forall₂_filterMap {α β γ : Type} {f : α → Option β} {R : β → γ → Prop} {xs : List α}
    {ys : List γ} (h : List.Forall₂ (fun x y => ∃ b, f x = some b ∧ R b y) xs ys) :
    List.Forall₂ R (xs.filterMap f) ys := by
  induction h with
  | nil => exact .nil
  | cons hx _ ih =>
      obtain ⟨b, hb, hR⟩ := hx
      rw [List.filterMap_cons_some hb]
      exact .cons hR ih

-- What holds of a block that answers for a delivery in a run on a ledger.
structure Block.AnswersFor (t : Thresholds) (b : Block) (d : Digest) (view : LedgerView) :
    Prop where
  id : b.id = d
  passes : b.check view = .ok ()
  votes : 2 * t.faulty.toNat + 1 < b.votes.length

namespace Replica

-- The blocks that a call hands out.
def handed (r : Replica) : Call → List Block
  | .takeDelivered => r.takeDelivered.1
  | _ => []

-- The blocks that calls hand out.
def taken (r : Replica) : List Call → List Block
  | [] => []
  | c :: rest => r.handed c ++ (r.answer c).2.taken rest

-- The ledger of the run that goes on after a call.
def Call.viewAfter (view : LedgerView) : Call → LedgerView
  | .startRun view => view
  | _ => view

-- The deliveries among the answers to calls, each with the ledger of its run.
def deliveries (r : Replica) (view : LedgerView) : List Call → List (Digest × LedgerView)
  | [] => []
  | c :: rest =>
    (deliveredIn (r.answer c).1).map (·, view) ++
      (r.answer c).2.deliveries (c.viewAfter view) rest

-- The votes that are held for a block.
def votesHeld (r : Replica) (d : Digest) : Nat :=
  ((r.blocks.get? d).map fun b => b.votes.length).getD 0

-- Blocks that are voted on have passed and hold their votes, and a block that was delivered gets
-- no more READYs in later runs.
structure Backed (t : Thresholds) (view : LedgerView) (r : Replica) : Prop where
  thresholds_eq : r.thresholds = t
  view_eq : r.view = view
  verified : ∀ d ∈ r.verified, (r.blocks.get? d).isSome
  passes : ∀ d b, r.blocks.get? d = some b → d ∉ r.finalized → b.check view = .ok ()
  votes : ∀ d, d ∉ r.finalized → r.tally.readyCount d ≤ r.votesHeld d
  fresh : r.isDelivered = false → ∀ d ∈ r.finalized, r.tally.readyCount d = 0
  delivered : ∀ d ∈ r.delivered, d ∈ r.finalized

-- Deliveries whose blocks nobody took yet.
def Owes (t : Thresholds) (r : Replica) (owed : List (Digest × LedgerView)) : Prop :=
  List.Forall₂ (fun d e => ∃ b, r.blocks.get? d = some b ∧ b.AnswersFor t e.1 e.2) r.delivered owed

-- Nothing is delivered, or one block for the first time, with which the run is over.
def DeliversOnce (r r' : Replica) (ds : List Digest) : Prop :=
  (ds = [] ∧ r'.finalized = r.finalized) ∨
    ∃ d, ds = [d] ∧ d ∉ r.finalized ∧ r'.finalized = d :: r.finalized ∧ r'.isDelivered = true

theorem DeliversOnce.length_le_one {r r' : Replica} {ds : List Digest}
    (h : r.DeliversOnce r' ds) : ds.length ≤ 1 := by
  rcases h with ⟨hnone, -⟩ | ⟨d, hone, -⟩
  · simp [hnone]
  · simp [hone]

variable {t : Thresholds} {view : LedgerView} {owed : List (Digest × LedgerView)} {r r' : Replica}

theorem Owes.congr (h : r.Owes t owed) (hdelivered : r'.delivered = r.delivered)
    (hblocks : ∀ d ∈ r.delivered, r'.blocks.get? d = r.blocks.get? d) : r'.Owes t owed := by
  unfold Owes at h ⊢
  rw [hdelivered]
  refine ((List.forall₂_and_left _ _).mpr ⟨hblocks, h⟩).imp fun d e hboth => ?_
  obtain ⟨hsame, b, hb, hanswers⟩ := hboth
  exact ⟨b, hsame.trans hb, hanswers⟩

theorem Owes.deliveredBlocks (h : r.Owes t owed) :
    List.Forall₂ (fun b e => b.AnswersFor t e.1 e.2) r.deliveredBlocks owed :=
  forall₂_filterMap h

theorem votesHeld_counting (r : Replica) (m : Message) (s : Seal) (d : Digest) :
    (r.counting m s).votesHeld d =
      if m.blockId = d then r.votesHeld d + 1 else r.votesHeld d := by
  unfold votesHeld counting
  rw [Table.get?_set]
  by_cases hd : m.blockId = d
  · subst hd
    cases r.blocks.get? m.blockId <;> simp [Block.collect, Block.withoutVotes]
  · simp [hd]

namespace Backed

theorem create (id : ValidatorId) (role : Role) (t : Thresholds) (committee : List ValidatorId)
    (signer : Signer) : (create id role t committee signer).Backed t ⟨∅, []⟩ where
  thresholds_eq := rfl
  view_eq := rfl
  verified := by simp [Replica.create]
  passes := by simp [Replica.create]
  votes := by simp [Replica.create, Tally.start, Tally.readyCount]
  fresh := by simp [Replica.create]
  delivered := by simp [Replica.create]

theorem startRun (h : r.Backed t view) (view' : LedgerView) :
    (r.startRun view').Backed t view' where
  thresholds_eq := h.thresholds_eq
  view_eq := rfl
  verified := by simp [Replica.startRun]
  passes := by
    intro d b hb hd
    simp only [Replica.startRun, Table.get?_retain] at hb
    split at hb
    · rename_i hkept
      exact absurd (h.delivered d (of_decide_eq_true hkept)) hd
    · cases hb
  votes := by simp [Replica.startRun, Tally.start, Tally.readyCount]
  fresh := by simp [Replica.startRun, Tally.start, Tally.readyCount]
  delivered := h.delivered

theorem takeDelivered (h : r.Backed t view) : r.takeDelivered.2.Backed t view :=
  ⟨h.thresholds_eq, h.view_eq, h.verified, h.passes, h.votes, h.fresh, by
    simp [Replica.takeDelivered]⟩

theorem following (h : r.Backed t view) (m : Message) : (r.following m).Backed t view :=
  ⟨h.thresholds_eq, h.view_eq, h.verified, h.passes, h.votes, h.fresh, h.delivered⟩

-- No vote but READY matters.
theorem withTally (h : r.Backed t view) (signer : Signer) {tally : Tally}
    (hready : ∀ d, tally.readyCount d = r.tally.readyCount d)
    (hdelivered : tally.isDelivered = r.tally.isDelivered) :
    { r with signer, tally }.Backed t view where
  thresholds_eq := h.thresholds_eq
  view_eq := h.view_eq
  verified := h.verified
  passes := h.passes
  votes := fun d hd => hready d ▸ h.votes d hd
  fresh := fun hactive d hd => (hready d).trans (h.fresh (hdelivered.symm.trans hactive) d hd)
  delivered := h.delivered

-- The first copy of a block was looked at, and the others are kept out of the table.
theorem check_base (h : r.Backed t view) {m : Message} {s : Seal} (hs : r.Accepts m s) :
    ((r.blocks.get? m.blockId).getD m.block.withoutVotes).check view = .ok () := by
  cases hget : r.blocks.get? m.blockId with
  | some b => exact h.passes m.blockId b hget hs.pending
  | none =>
      have hnew : m.blockId ∉ r.verified := fun hold => by
        have hsome := h.verified m.blockId hold
        rw [hget] at hsome
        cases hsome
      have hvalid := Block.isValid_iff.mp (hs.passes.resolve_left hnew)
      rw [h.view_eq] at hvalid
      exact (m.block.withoutVotes_agrees.check view).trans hvalid

theorem counting (h : r.Backed t view) {m : Message} {s : Seal} (hs : r.Accepts m s) :
    (r.counting m s).Backed t view where
  thresholds_eq := h.thresholds_eq
  view_eq := h.view_eq
  verified := by
    intro d hd
    simp only [Replica.counting, Table.get?_set]
    by_cases hid : m.blockId = d
    · simp [hid]
    · rw [if_neg hid]
      simp only [Replica.counting] at hd
      split at hd
      · exact h.verified d hd
      · exact h.verified d ((List.mem_cons.mp hd).resolve_left fun he => hid he.symm)
  passes := by
    intro d b hb hd
    simp only [Replica.counting, Table.get?_set] at hb
    split at hb
    · rw [← Option.some.inj hb]
      exact ((Block.collect_agrees _ _).check view).trans (h.check_base hs)
    · exact h.passes d b hb hd
  votes := by
    intro d hd
    have hbefore := h.votes d hd
    rw [votesHeld_counting]
    simp only [Replica.counting, Tally.readyCount_take]
    by_cases hid : m.blockId = d
    · rw [if_pos hid]
      split <;> omega
    · simp [hid, hbefore]
  fresh := by
    intro hactive d hd
    have hid : m.blockId ≠ d := fun he => hs.pending (he ▸ hd)
    have hbefore := h.fresh (by simpa [Replica.counting, isDelivered] using hactive) d hd
    simp [Replica.counting, Tally.readyCount_take, hid, hbefore]
  delivered := h.delivered

end Backed

theorem deliveredIn_vote (r : Replica) (kind : MessageKind) (d : Digest) (round : UInt16) :
    deliveredIn (r.vote kind d round).1 = [] := by
  refine List.filterMap_eq_nil_iff.mpr fun a ha => ?_
  obtain ⟨m, b, rfl, -⟩ := mem_vote ha
  rfl

theorem deliveredIn_propose (r : Replica) (b : Block) :
    deliveredIn (r.answer (.propose b)).1 = [] := by
  refine List.filterMap_eq_nil_iff.mpr fun a ha => ?_
  obtain ⟨-, m, rfl, -⟩ := mem_propose ha
  rfl

theorem Owes.counting (h : r.Owes t owed) (hbacked : r.Backed t view) {m : Message} {s : Seal}
    (hs : r.Accepts m s) : (r.counting m s).Owes t owed := by
  refine h.congr rfl fun d hd => ?_
  have hid : m.blockId ≠ d := fun he => hs.pending (he ▸ hbacked.delivered d hd)
  simp [Replica.counting, hid]

theorem Owes.startRun (h : r.Owes t owed) (view' : LedgerView) :
    (r.startRun view').Owes t owed := by
  refine h.congr rfl fun d hd => ?_
  simp [Replica.startRun, Table.get?_retain, hd]

-- What is delivered has the READYs for it, so it was not delivered before and holds their votes.
theorem Backed.deliver (h : r.Backed t view) (hactive : r.isDelivered = false) {d : Digest}
    (henough : r.thresholds.delivers (r.tally.readyCount d)) :
    d ∉ r.finalized ∧ (∃ b, r.blocks.get? d = some b ∧ b.check view = .ok () ∧
      2 * t.faulty.toNat + 1 < b.votes.length) ∧ (r.deliver d).2.Backed t view := by
  have hover : 2 * t.faulty.toNat + 1 < r.tally.readyCount d := by
    rw [← h.thresholds_eq]
    exact of_decide_eq_true henough
  have hnew : d ∉ r.finalized := by
    intro hold
    rw [h.fresh hactive d hold] at hover
    cases hover
  have hheld := Nat.lt_of_lt_of_le hover (h.votes d hnew)
  refine ⟨hnew, ?_, ?_⟩
  · unfold votesHeld at hheld
    cases hget : r.blocks.get? d with
    | none => simp [hget] at hheld
    | some b => exact ⟨b, rfl, h.passes d b hget hnew, by simpa [hget] using hheld⟩
  · refine ⟨h.thresholds_eq, h.view_eq, h.verified, ?_, ?_, ?_, ?_⟩
    · exact fun d' b hb hd' => h.passes d' b hb fun hold => hd' (List.mem_cons_of_mem d hold)
    · intro d' hd'
      have hne : d ≠ d' := fun he => hd' (he ▸ List.mem_cons_self)
      simp only [Replica.deliver, Tally.readyCount_deliver, if_neg hne]
      exact h.votes d' fun hold => hd' (List.mem_cons_of_mem d hold)
    · simp [Replica.deliver, isDelivered, Tally.isDelivered, Tally.deliver]
    · intro d' hd'
      rcases List.mem_append.mp hd' with hd' | hd'
      · exact List.mem_cons_of_mem d (h.delivered d' hd')
      · exact List.mem_singleton.mp hd' ▸ List.mem_cons_self

-- What an act delivers, and that it stays answered for.
structure Delivers (t : Thresholds) (view : LedgerView) (owed : List (Digest × LedgerView))
    (r r' : Replica) (ds : List Digest) : Prop where
  backed : r'.Backed t view
  owes : r'.Owes t (owed ++ ds.map (·, view))
  once : r.DeliversOnce r' ds

theorem Delivers.none (hbacked : r'.Backed t view) (howes : r'.Owes t owed)
    (hfinal : r'.finalized = r.finalized) : Delivers t view owed r r' [] :=
  ⟨hbacked, by simpa using howes, .inl ⟨rfl, hfinal⟩⟩

theorem Delivers.act {P : Block → Prop} (hstores : r.Stores P) (h : r.Backed t view)
    (howes : r.Owes t owed) {actions : List Action} (hact : Act r actions r') :
    Delivers t view owed r r' (deliveredIn actions) := by
  cases hact with
  | @echo d active pending =>
      obtain ⟨signer, hnext⟩ :=
        vote_snd { r with tally := r.tally.clearSend } .echo d Round.echo
      rw [hnext, deliveredIn_vote]
      exact .none (h.withTally signer (fun _ => rfl) rfl) howes rfl
  | @ready d round tally active mark call =>
      obtain ⟨signer, hnext⟩ := vote_snd { r with tally } .ready d round
      obtain ⟨-, rfl⟩ := Tally.markReady_eq_true mark
      rw [hnext, deliveredIn_vote]
      exact .none (h.withTally signer (fun _ => rfl) rfl) howes rfl
  | @deliver d active declared enough =>
      obtain ⟨hnew, ⟨b, hb, hpasses, hvotes⟩, hbacked⟩ := h.deliver active enough
      have hanswers : b.AnswersFor t d view := ⟨(hstores.blocks d b hb).1, hpasses, hvotes⟩
      exact ⟨hbacked, List.rel_append howes (.cons ⟨b, hb, hanswers⟩ .nil),
        .inr ⟨d, rfl, hnew, rfl, rfl⟩⟩

-- A batch goes on acting only as long as it delivered nothing.
theorem Delivers.outcome (hstores : r.Stores fun _ => True) (h : r.Backed t view)
    (howes : r.Owes t owed) (batch : List Message) :
    (r.outcome batch).2.Stores (fun _ => True) ∧
      Delivers t view owed r (r.outcome batch).2 (deliveredIn (r.outcome batch).1) := by
  have hcleared : { r with tally := r.tally.clearSend }.Backed t view :=
    h.withTally r.signer (fun _ => rfl) rfl
  refine hstores.outcome_induct
    (I := fun _ done r' => Delivers t view owed r r' (deliveredIn done))
    (fun _ _ _ _ => trivial) batch [] [] (fun _ _ => trivial) ?_ ?_ ?_ (.none h howes rfl)
    fun _ => .none hcleared howes rfl
  · intro seen done r' m s hd hs
    refine ⟨hd.backed.counting hs, hd.owes.counting hd.backed hs, ?_⟩
    rcases hd.once with hnone | ⟨d, hds, hnew, hfinal, hover⟩
    · exact .inl hnone
    · exact .inr ⟨d, hds, hnew, hfinal, by simpa [counting, isDelivered] using hover⟩
  · intro seen done r' m hd
    exact ⟨hd.backed.following m, hd.owes, hd.once⟩
  · intro seen done r' actions r'' hstores' hd hact
    rcases hd.once with ⟨hnone, hfinal⟩ | ⟨d, -, -, -, hover⟩
    · have howes' : r'.Owes t owed := by simpa [hnone] using hd.owes
      have hnext := Delivers.act hstores' hd.backed howes' hact
      rw [deliveredIn_append, hnone, List.nil_append]
      refine ⟨hnext.backed, hnext.owes, ?_⟩
      have honce := hnext.once
      unfold DeliversOnce at honce ⊢
      rwa [hfinal] at honce
    · rw [hact.isDelivered_before] at hover
      cases hover

-- All that stands behind what a replica still has to hand out.
structure Standing (t : Thresholds) (view : LedgerView) (owed : List (Digest × LedgerView))
    (r : Replica) : Prop where
  stores : r.Stores fun _ => True
  backed : r.Backed t view
  owes : r.Owes t owed

theorem standing_create (s : Seat) (v : ValidatorId) :
    (s.replica v).Standing s.thresholds ⟨∅, []⟩ [] :=
  ⟨stores_create _ _ _ _ _, .create _ _ _ _ _, .nil⟩

-- A call adds its delivery to the deliveries that are owed, or hands out all of them.
theorem Standing.answer (h : r.Standing t view owed) (c : Call) :
    r.DeliversOnce (r.answer c).2 (deliveredIn (r.answer c).1) ∧
      ∃ given left, owed ++ (deliveredIn (r.answer c).1).map (·, view) = given ++ left ∧
        List.Forall₂ (fun b e => b.AnswersFor t e.1 e.2) (r.handed c) given ∧
        (r.answer c).2.Standing t (c.viewAfter view) left := by
  cases c with
  | startRun view' =>
      exact ⟨.inl ⟨rfl, rfl⟩, [], owed, List.append_nil _, .nil, h.stores.startRun view',
        h.backed.startRun view', h.owes.startRun view'⟩
  | takeDelivered =>
      exact ⟨.inl ⟨rfl, rfl⟩, owed, [], rfl, h.owes.deliveredBlocks, h.stores.takeDelivered,
        h.backed.takeDelivered, .nil⟩
  | propose b =>
      obtain ⟨signer, hnext⟩ := r.propose_snd b
      rw [hnext, deliveredIn_propose]
      exact ⟨.inl ⟨rfl, rfl⟩, [], owed, List.append_nil _, .nil, h.stores.withSigner signer,
        h.backed.withTally signer (fun _ => rfl) rfl, h.owes⟩
  | batch messages =>
      rw [answer_batch h.stores.proper]
      split
      · obtain ⟨hstores, hd⟩ := Delivers.outcome h.stores h.backed h.owes messages
        rw [Role.deliveredIn_shape _ _ _ hd.once.length_le_one]
        exact ⟨hd.once, [], _, rfl, .nil, hstores, hd.backed, hd.owes⟩
      · exact ⟨.inl ⟨rfl, rfl⟩, [], owed, List.append_nil _, .nil, h⟩

theorem Standing.forall₂_taken (h : r.Standing t view owed) (calls : List Call) :
    List.Forall₂ (fun b e => b.AnswersFor t e.1 e.2)
      (r.taken calls ++ (r.after calls).deliveredBlocks) (owed ++ r.deliveries view calls) := by
  induction calls generalizing r view owed with
  | nil => simpa [taken, deliveries, after] using h.owes.deliveredBlocks
  | cons c rest ih =>
      obtain ⟨-, given, left, hsplit, hgiven, hnext⟩ := h.answer c
      have htaken : r.taken (c :: rest) ++ (r.after (c :: rest)).deliveredBlocks =
          r.handed c ++
            ((r.answer c).2.taken rest ++ ((r.answer c).2.after rest).deliveredBlocks) :=
        List.append_assoc _ _ _
      have hdelivered : owed ++ r.deliveries view (c :: rest) =
          given ++ (left ++ (r.answer c).2.deliveries (c.viewAfter view) rest) := by
        rw [deliveries, ← List.append_assoc, hsplit, List.append_assoc]
      rw [htaken, hdelivered]
      exact List.rel_append hgiven (ih hnext)

-- What was delivered before is not delivered again.
theorem Standing.nodup_deliveries (h : r.Standing t view owed) (calls : List Call) :
    ((r.deliveries view calls).map (·.1)).Nodup ∧
      ∀ d ∈ (r.deliveries view calls).map (·.1), d ∉ r.finalized := by
  induction calls generalizing r view owed with
  | nil => exact ⟨.nil, by simp [deliveries]⟩
  | cons c rest ih =>
      obtain ⟨honce, -, left, -, -, hnext⟩ := h.answer c
      obtain ⟨hnodup, hnew⟩ := ih hnext
      rcases honce with ⟨hnone, hfinal⟩ | ⟨d, hone, hd, hfinal, -⟩
      · have hsame : r.deliveries view (c :: rest) =
            (r.answer c).2.deliveries (c.viewAfter view) rest := by
          simp [deliveries, hnone]
        rw [hsame]
        exact ⟨hnodup, hfinal ▸ hnew⟩
      · rw [hfinal] at hnew
        have happart : d ∉ ((r.answer c).2.deliveries (c.viewAfter view) rest).map (·.1) :=
          fun hmem => hnew d hmem List.mem_cons_self
        have hlater : ∀ d' ∈ ((r.answer c).2.deliveries (c.viewAfter view) rest).map (·.1),
            d' ∉ r.finalized := fun d' hd' hold => hnew d' hd' (List.mem_cons_of_mem d hold)
        have hall : (r.deliveries view (c :: rest)).map (·.1) =
            d :: ((r.answer c).2.deliveries (c.viewAfter view) rest).map (·.1) := by
          simp [deliveries, hone]
        rw [hall]
        exact ⟨List.nodup_cons.mpr ⟨happart, hnodup⟩, List.forall_mem_cons.mpr ⟨hd, hlater⟩⟩

-- A run that is over stays so until the next one starts.
theorem deliveredIn_answer_of_isDelivered (hover : r.isDelivered = true)
    (hproper : r.tally.Proper) {c : Call} (hc : c.isStart = false) :
    deliveredIn (r.answer c).1 = [] ∧ (r.answer c).2.isDelivered = true := by
  cases c with
  | startRun view' => cases hc
  | takeDelivered => exact ⟨rfl, hover⟩
  | propose b =>
      obtain ⟨signer, hnext⟩ := r.propose_snd b
      rw [deliveredIn_propose, hnext]
      exact ⟨rfl, hover⟩
  | batch messages =>
      rw [answer_batch hproper, outcome, if_pos hover]
      split
      · rw [Role.shape_nil]
        exact ⟨rfl, (r.onMessages_isDelivered messages).trans hover⟩
      · exact ⟨rfl, hover⟩

theorem Standing.deliveries_of_isDelivered (h : r.Standing t view owed)
    (hover : r.isDelivered = true) {run : List Call} (hrun : ∀ c ∈ run, c.isStart = false) :
    r.deliveries view run = [] := by
  induction run generalizing r view owed with
  | nil => rfl
  | cons c rest ih =>
      obtain ⟨hc, hrest⟩ := List.forall_mem_cons.mp hrun
      obtain ⟨-, -, left, -, -, hnext⟩ := h.answer c
      obtain ⟨hnone, hstill⟩ := deliveredIn_answer_of_isDelivered hover h.stores.proper hc
      rw [deliveries, hnone, ih hnext hstill hrest]
      rfl

theorem Standing.length_deliveries_le_one (h : r.Standing t view owed) {run : List Call}
    (hrun : ∀ c ∈ run, c.isStart = false) : (r.deliveries view run).length ≤ 1 := by
  induction run generalizing r view owed with
  | nil => exact Nat.zero_le 1
  | cons c rest ih =>
      obtain ⟨hc, hrest⟩ := List.forall_mem_cons.mp hrun
      obtain ⟨honce, -, left, -, -, hnext⟩ := h.answer c
      rcases honce with ⟨hnone, -⟩ | ⟨d, hone, -, -, hover⟩
      · have hlater := ih hnext hrest
        simpa [deliveries, hnone] using hlater
      · rw [deliveries, hone, hnext.deliveries_of_isDelivered hover hrest]
        exact Nat.le_refl 1

-- The ledger of the run that goes on after calls.
def viewAfter (view : LedgerView) (calls : List Call) : LedgerView :=
  calls.foldl Call.viewAfter view

theorem Standing.after (h : r.Standing t view owed) (calls : List Call) :
    ∃ left, (r.after calls).Standing t (viewAfter view calls) left := by
  induction calls generalizing r view owed with
  | nil => exact ⟨owed, h⟩
  | cons c rest ih =>
      obtain ⟨-, -, left, -, -, hnext⟩ := h.answer c
      exact ih hnext

-- A delivery needs READYs of the run, so the block is in the table with their votes. It stays there
-- until it is taken, and no message for it counts again.
theorem taken_append_deliveredBlocks (s : Seat) (v : ValidatorId) (calls : List Call) :
    List.Forall₂ (fun b e => b.AnswersFor s.thresholds e.1 e.2)
        ((s.replica v).taken calls ++ ((s.replica v).after calls).deliveredBlocks)
        ((s.replica v).deliveries ⟨∅, []⟩ calls) ∧
      (((s.replica v).deliveries ⟨∅, []⟩ calls).map (·.1)).Nodup ∧
      ∀ run, (∀ c ∈ run, c.isStart = false) →
        (((s.replica v).after calls).deliveries (viewAfter ⟨∅, []⟩ calls) run).length ≤ 1 := by
  have hstanding := standing_create s v
  refine ⟨hstanding.forall₂_taken calls, (hstanding.nodup_deliveries calls).1, ?_⟩
  intro run hrun
  obtain ⟨left, hbefore⟩ := hstanding.after calls
  exact hbefore.length_deliveries_le_one hrun

-- Where nobody is faulty, two READYs deliver.
def pairSeat : Seat :=
  ⟨.regular, ⟨3, 0⟩, [], .steady .blank⟩

def readyOf (u : ValidatorId) : Message :=
  ⟨.ready, { Block.blank with sealedBy := some ⟨u, ⟨.replicate keyBits .zero⟩, none⟩ }, u,
    Round.readyFromEcho⟩

def pairing : List Call :=
  [.batch [readyOf ⟨0⟩, readyOf ⟨1⟩], .takeDelivered, .batch [readyOf ⟨3⟩]]

theorem taken_append_deliveredBlocks_pair :
    (∃ b view, (pairSeat.replica ⟨2⟩).taken pairing ++
        ((pairSeat.replica ⟨2⟩).after pairing).deliveredBlocks = [b] ∧
        b.AnswersFor ⟨3, 0⟩ Block.blank.id view) ∧
      (∀ c ∈ pairing, c.isStart = false) ∧
      ((pairSeat.replica ⟨2⟩).deliveries ⟨∅, []⟩ pairing).length ≤ 1 := by
  have hone : ((pairSeat.replica ⟨2⟩).deliveries ⟨∅, []⟩ pairing).map (·.1) =
      [Block.blank.id] := by decide +kernel
  have hrun : ∀ c ∈ pairing, c.isStart = false := by simp [pairing, Call.isStart]
  obtain ⟨hanswers, -, -⟩ := taken_append_deliveredBlocks pairSeat ⟨2⟩ pairing
  obtain ⟨-, -, hshort⟩ := taken_append_deliveredBlocks pairSeat ⟨2⟩ []
  obtain ⟨e, he, hid⟩ := List.map_eq_singleton_iff.mp hone
  rw [he] at hanswers
  obtain ⟨b, rest, hb, hrest, htaken⟩ := List.forall₂_cons_right_iff.mp hanswers
  rw [List.forall₂_nil_right_iff.mp hrest] at htaken
  exact ⟨⟨b, e.2, htaken, hid ▸ hb⟩, hrun, hshort pairing hrun⟩

end Replica

end QuorumLedger
