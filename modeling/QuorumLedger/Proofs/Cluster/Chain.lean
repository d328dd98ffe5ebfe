import QuorumLedger.Proofs.Cluster.Success
import QuorumLedger.Proofs.Ledger.Commitment

namespace QuorumLedger

theorem Height.toNat_of_next {h h' : Height} (hnext : h.next = .ok h') :
    h'.value.toNat = h.value.toNat + 1 := by
  unfold next Checked.add at hnext
  split at hnext
  · rename_i hfits
    obtain rfl := Except.ok.inj hnext
    exact UInt64.toNat_ofNat_of_lt' hfits
  · cases hnext

namespace Pool

theorem frame_fill (view : LedgerView) (max : Nat) (queue : List Transaction) (d : Draft) :
    (fill view max queue d).1.height = d.height ∧ (fill view max queue d).1.parent = d.parent := by
  obtain ⟨taken, -, hdraft, -⟩ := exists_taken_fill view max queue d
  rw [hdraft]
  exact ⟨rfl, rfl⟩

theorem frame_buildBlock {p : Pool} {height : Height} {parent : Digest} {b : Block}
    (h : (p.buildBlock height parent).1 = some b) :
    b.height = height ∧ b.header.parent = parent := by
  unfold buildBlock at h
  by_cases hempty : p.pending.isEmpty
  · simp [hempty] at h
  · simp only [hempty, Bool.false_eq_true, if_false, Option.some.injEq] at h
    subst h
    exact frame_fill p.view _ p.pending (Draft.start height parent)

end Pool

theorem Cluster.frame_nextBlock {σ : Type} (c : Cluster σ) :
    c.nextBlock.1.height = c.height ∧ c.nextBlock.1.header.parent = c.parent := by
  cases hblock : (c.pool.buildBlock c.height c.parent).1 with
  | none =>
      simp only [nextBlock, hblock, Option.getD_none]
      exact ⟨rfl, rfl⟩
  | some b =>
      simp only [nextBlock, hblock, Option.getD_some]
      exact Pool.frame_buildBlock hblock

-- What the next block builds on.
def tip (successes : List Success) : Digest :=
  (successes.getLast?.map fun s => s.applied.id).getD Bytes32.zero

theorem tip_append_singleton (successes : List Success) (s : Success) :
    tip (successes ++ [s]) = s.applied.id := by
  simp [tip]

-- The unspent outputs once the blocks of successes were applied in order.
def unspentAfter (successes : List Success) (first : UnspentSet) : UnspentSet :=
  successes.foldl (fun u s => (Pool.applyTransactions s.applied.transactions u).2) first

theorem unspentAfter_append_singleton (successes : List Success) (s : Success)
    (first : UnspentSet) : unspentAfter (successes ++ [s]) first =
      (Pool.applyTransactions s.applied.transactions (unspentAfter successes first)).2 := by
  simp [unspentAfter]

-- Whether a block has its place right behind certain successes.
structure Block.Follows (b : Block) (earlier : List Success) : Prop where
  height : b.height.value.toNat = earlier.length + 1
  parent : b.header.parent = tip earlier

theorem Block.Follows.of_agrees {a b : Block} {earlier : List Success} (h : b.Follows earlier)
    (hagrees : a.Agrees b) : a.Follows earlier :=
  ⟨hagrees.height ▸ h.height, hagrees.header ▸ h.parent⟩

namespace Chronicle

variable {σ : Type} {first : UnspentSet} {x y : Chronicle σ}

-- No two headers of chosen blocks collide, and none has the id that the first block builds on.
structure Distinct (x : Chronicle σ) : Prop where
  separate : ¬ Digest.Collides (x.proposed.map fun b => b.header.idBytes)
  nonzero : ∀ b ∈ x.proposed, b.id ≠ Bytes32.zero

theorem Distinct.parent_eq (h : x.Distinct) {a b : Block} (ha : a ∈ x.proposed)
    (hb : b ∈ x.proposed) (hid : a.id = b.id) : a.header.parent = b.header.parent :=
  Header.parent_eq_of_idBytes <| Digest.injOn_of h.separate
    (List.mem_map_of_mem (f := fun b : Block => b.header.idBytes) ha)
    (List.mem_map_of_mem (f := fun b : Block => b.header.idBytes) hb) hid

theorem Distinct.of_subset (h : y.Distinct) (hsub : x.proposed ⊆ y.proposed) : x.Distinct where
  separate := by
    rintro ⟨p, hp, q, hq, hne, hsame⟩
    exact h.separate ⟨p, List.map_subset _ hsub hp, q, List.map_subset _ hsub hq, hne, hsame⟩
  nonzero := fun b hb => h.nonzero b (hsub hb)

-- The state of a ledger that is a chain. Blocks may have been chosen for places that others took.
structure Linked (first : UnspentSet) (x : Chronicle σ) : Prop where
  height : x.cluster.height.value.toNat = x.successes.length + 1
  parent : x.cluster.parent = tip x.successes
  unspent : x.cluster.pool.unspent = unspentAfter x.successes first
  proposed : ∀ b ∈ x.proposed, ∃ earlier, earlier <+: x.successes ∧ b.Follows earlier
  successes : ∀ earlier s, earlier ++ [s] <+: x.successes →
    s.proposed ∈ x.proposed ∧ s.proposed.Follows earlier ∧ s.applied.id = s.proposed.id ∧
      s.applied.Follows earlier
  current : ∀ b, x.stage.block? = some b → b.Follows x.successes

namespace Linked

variable (h : x.Linked first)

include h

-- An id leads to one place. From two places with one tip one would come down, block by block, to
-- the start on one side only, whose parent no block has as its id.
theorem eq_of_tip_eq (hdistinct : x.Distinct) {earlier other : List Success}
    (hearlier : earlier <+: x.successes) (hother : other <+: x.successes)
    (htip : tip earlier = tip other) : earlier = other := by
  have hnonzero : ∀ front s, front ++ [s] <+: x.successes → tip [] ≠ tip (front ++ [s]) := by
    intro front s hprefix he
    obtain ⟨hmem, -, hid, -⟩ := h.successes front s hprefix
    rw [tip_append_singleton, hid] at he
    exact hdistinct.nonzero _ hmem he.symm
  induction earlier using List.reverseRecOn generalizing other with
  | nil =>
      rcases List.eq_nil_or_concat' other with rfl | ⟨front, s, rfl⟩
      · rfl
      · exact absurd htip (hnonzero front s hother)
  | append_singleton front s ih =>
      rcases List.eq_nil_or_concat' other with rfl | ⟨front', s', rfl⟩
      · exact absurd htip.symm (hnonzero front s hearlier)
      · obtain ⟨hmem, hfollows, hid, -⟩ := h.successes front s hearlier
        obtain ⟨hmem', hfollows', hid', -⟩ := h.successes front' s' hother
        rw [tip_append_singleton, tip_append_singleton, hid, hid'] at htip
        have hparents := hdistinct.parent_eq hmem hmem' htip
        rw [hfollows.parent, hfollows'.parent] at hparents
        have hfronts := ih ((List.prefix_append _ _).trans hearlier)
          ((List.prefix_append _ _).trans hother) hparents
        have hlength : (front ++ [s]).length = (front' ++ [s']).length := by
          rw [List.length_append, List.length_append, hfronts]
          rfl
        exact (List.prefix_of_prefix_length_le hearlier hother (Nat.le_of_eq hlength)).eq_of_length
          hlength

-- Whatever says what some chosen block says, under the id of the present one, is in its place.
theorem follows_of_id_eq (hdistinct : x.Distinct) {b b' : Block} (hb : b ∈ x.proposed)
    (hfollows : b.Follows x.successes) (hproposed : x.Proposed b') (hid : b'.id = b.id) :
    b'.Follows x.successes := by
  obtain ⟨b'', hb'', hagrees⟩ := hproposed
  obtain ⟨earlier, hearlier, hplace⟩ := h.proposed b'' hb''
  have hparents := hdistinct.parent_eq hb'' hb (hagrees.id.symm.trans hid)
  rw [hplace.parent, hfollows.parent] at hparents
  have hsame := h.eq_of_tip_eq hdistinct hearlier List.prefix_rfl hparents
  exact (hsame ▸ hplace).of_agrees hagrees

theorem congr {y : Chronicle σ} (hheight : y.cluster.height = x.cluster.height)
    (hparent : y.cluster.parent = x.cluster.parent)
    (hunspent : y.cluster.pool.unspent = x.cluster.pool.unspent)
    (hproposed : y.proposed = x.proposed) (hsuccesses : y.successes = x.successes)
    (hstage : ∀ b, y.stage.block? = some b → x.stage.block? = some b) : y.Linked first :=
  ⟨by rw [hheight, hsuccesses, h.height], by rw [hparent, hsuccesses, h.parent],
    by rw [hunspent, hsuccesses, h.unspent], hproposed ▸ hsuccesses ▸ h.proposed,
    hproposed ▸ hsuccesses ▸ h.successes, fun b hb => hsuccesses ▸ h.current b (hstage b hb)⟩

theorem choose : x.choose.Linked first := by
  obtain ⟨taken, left, -, -, hnext⟩ := x.cluster.nextBlock_cases
  obtain ⟨hheight, hparent⟩ := x.cluster.frame_nextBlock
  have hcluster : x.choose.cluster =
      { x.cluster with pool := { x.cluster.pool with pending := left } } := hnext
  have hfollows : x.cluster.nextBlock.1.Follows x.successes :=
    ⟨hheight ▸ h.height, hparent.trans h.parent⟩
  refine ⟨?_, ?_, ?_, ?_, ?_, ?_⟩
  · rw [hcluster]
    exact h.height
  · rw [hcluster]
    exact h.parent
  · rw [hcluster]
    exact h.unspent
  · intro b hb
    rcases List.mem_append.mp hb with hold | hnew
    · exact h.proposed b hold
    · rw [List.mem_singleton.mp hnew]
      exact ⟨x.successes, List.prefix_rfl, hfollows⟩
  · intro earlier s hprefix
    obtain ⟨hmem, hrest⟩ := h.successes earlier s hprefix
    exact ⟨List.mem_append_left _ hmem, hrest⟩
  · intro b hb
    exact Option.some.inj hb ▸ hfollows

theorem succeed (hmanned : x.Manned) (hdistinct : x.Distinct) {b : Block}
    {votes : List (ValidatorId × Option Digest)} {o : RoundOutcome} {c : Cluster σ}
    (hstage : x.stage = .waiting b) (hagrees : x.cluster.outcome b = .ok votes)
    (hconcludes : x.cluster.conclude b votes = (.ok o, c)) :
    { x with
      cluster := c
      stage := .idle
      successes := x.successes ++ [(⟨b, o.block⟩ : Success)] }.Linked first := by
  have hblock : x.stage.block? = some b := by rw [hstage, Stage.block?]
  have hmem := hmanned.chosen b hblock
  have hfollows := h.current b hblock
  obtain ⟨b', hhanded, hid, hproposed⟩ := hmanned.exists_handedOver hstage hagrees
  have hplace := h.follows_of_id_eq hdistinct hmem hfollows hproposed hid
  obtain ⟨height, hnext, rfl, rfl⟩ := Cluster.conclude_eq_ok hconcludes
  rw [hhanded]
  refine ⟨?_, ?_, ?_, ?_, ?_, by simp [Stage.block?]⟩
  · simp only [List.length_append, List.length_singleton]
    rw [Height.toNat_of_next hnext, h.height]
  · simp only [tip_append_singleton, hid]
  · rw [unspentAfter_append_singleton, ← h.unspent]
    rfl
  · intro p hp
    obtain ⟨earlier, hearlier, hp⟩ := h.proposed p hp
    exact ⟨earlier, hearlier.trans (List.prefix_append _ _), hp⟩
  · intro earlier s hprefix
    rcases List.prefix_concat_iff.mp hprefix with hlast | hold
    · obtain ⟨rfl, hs⟩ := List.append_inj' hlast rfl
      obtain rfl := List.singleton_inj.mp hs
      exact ⟨hmem, hfollows, hid, hplace⟩
    · exact h.successes earlier s hold

theorem step [WordSource σ] (hmanned : x.Manned) (hdistinct : x.Distinct) (hstep : Step x y) :
    y.Linked first := by
  cases hstep with
  | submit t idle =>
      have hunspent : (x.cluster.submit t).2.pool.unspent = x.cluster.pool.unspent := by
        rcases x.cluster.pool.submit_cases t with ⟨e, hnext⟩ | ⟨-, -, hnext⟩ <;>
          simp only [Cluster.submit, hnext, Pool.unspent]
      exact h.congr rfl rfl hunspent rfl rfl fun _ hb => hb
  | work e => exact h.congr rfl rfl rfl rfl rfl fun _ hb => hb
  | rewire n carried => exact h.congr rfl rfl rfl rfl rfl fun _ hb => hb
  | choose idle => exact h.choose
  | begin stage =>
      exact h.congr rfl rfl rfl rfl rfl fun _ hb => by rw [stage]; exact hb
  | propose stage proposes =>
      exact h.congr rfl rfl rfl rfl rfl fun _ hb => by rw [stage]; exact hb
  | refuse stage refuses =>
      exact h.congr rfl rfl rfl rfl rfl fun _ hb => absurd hb (by simp [Stage.block?])
  | fail stage fails =>
      exact h.congr rfl rfl rfl rfl rfl fun _ hb => absurd hb (by simp [Stage.block?])
  | succeed stage agrees concludes => exact h.succeed hmanned hdistinct stage agrees concludes

end Linked

variable [WordSource σ]

theorem Step.proposed_subset (h : Step x y) : x.proposed ⊆ y.proposed := by
  cases h with
  | choose idle => exact List.subset_append_left _ _
  | submit t idle => exact List.Subset.refl _
  | work e => exact List.Subset.refl _
  | rewire n carried => exact List.Subset.refl _
  | begin stage => exact List.Subset.refl _
  | propose stage proposes => exact List.Subset.refl _
  | refuse stage refuses => exact List.Subset.refl _
  | fail stage fails => exact List.Subset.refl _
  | succeed stage agrees concludes => exact List.Subset.refl _

theorem linked_of_reachable {c : Cluster σ} (hmanned : (start c).Manned)
    (hlinked : (start c).Linked first) (h : Reachable c x) (hdistinct : x.Distinct) :
    x.Linked first := by
  induction h with
  | start => exact hlinked
  | step before step ih =>
      have hbefore := hdistinct.of_subset step.proposed_subset
      exact (ih hbefore).step (manned_of_reachable hmanned before) hbefore step

theorem linked_start {s : Settings} {config : NetworkConfig} {sources : Nat → KeySource}
    {first : Cluster ChaCha} (h : Cluster.start s config sources = .ok first) :
    (start first).Linked first.pool.unspent := by
  obtain ⟨-, rs, -, -, rfl⟩ := Cluster.start_eq_ok h
  refine ⟨rfl, rfl, rfl, by simp [start], fun earlier s hprefix => ?_,
    by simp [start, Stage.block?]⟩
  exact absurd (List.prefix_nil.mp hprefix) (by simp)

-- Whatever has failed before, a success applies one block, under the id of the one that was
-- proposed for it, in the next place of the chain. All requests, as long as heights last, lead to
-- such states again.
theorem chained_of_reachable {s : Settings} {config : NetworkConfig} {sources : Nat → KeySource}
    {first : Cluster ChaCha} (hfirst : Cluster.start s config sources = .ok first)
    {x : Chronicle ChaCha} (hx : Reachable first x) (hdistinct : x.Distinct) :
    (∀ earlier s, earlier ++ [s] <+: x.successes →
      s.applied.id = s.proposed.id ∧ s.applied.height.value.toNat = earlier.length + 1 ∧
        s.applied.header.parent = tip earlier) ∧
      x.cluster.height.value.toNat = x.successes.length + 1 ∧
      x.cluster.parent = tip x.successes ∧
      x.cluster.pool.unspent = unspentAfter x.successes first.pool.unspent ∧
      (x.stage = .idle → ∀ requests,
        (∀ r ∈ x.cluster.rounds requests, ∀ cause, r.2 ≠ .error (.overflow cause)) →
          ∃ y, Reachable first y ∧ y.stage = .idle ∧
            y.cluster = requests.foldl Cluster.answer x.cluster ∧
            y.proposed = x.proposed ++ (x.cluster.rounds requests).map (·.1) ∧
            y.successes = x.successes ++
              (x.cluster.rounds requests).flatMap fun r => succeeded r.1 r.2) := by
  have hlinked := linked_of_reachable (manned_start hfirst) (linked_start hfirst) hx hdistinct
  refine ⟨fun earlier s hprefix => ?_, hlinked.height, hlinked.parent, hlinked.unspent,
    fun hidle requests hcause => hx.answers hidle hcause⟩
  obtain ⟨-, -, hid, hplace⟩ := hlinked.successes earlier s hprefix
  exact ⟨hid, hplace.height, hplace.parent⟩

-- A round with another block fails first.
theorem chained_of_reachable_paired :
    ∃ (x : Chronicle ChaCha) (s : Success), Reachable Cluster.paired x ∧ x.Distinct ∧
      x.stage = .idle ∧ x.proposed = [Journal.handingBlock ⟨0⟩ ⟨1⟩, .blank] ∧
      (Journal.handingBlock ⟨0⟩ ⟨1⟩).id ≠ Block.blank.id ∧ x.successes = [s] ∧
      s.proposed = .blank ∧ s.applied.id = Block.blank.id ∧ s.applied.height.value.toNat = 1 ∧
      s.applied.header.parent = Bytes32.zero ∧ x.cluster.height.value.toNat = 2 ∧
      x.cluster.parent = Block.blank.id := by
  obtain ⟨w, hw, hwaits, hstalled, hfailed, hnone⟩ := exists_stalled
  obtain ⟨x, hx, hidle, hproposed, b, hsuccesses⟩ :=
    Cluster.Hosts.succeeds (hstalled ▸ Cluster.hosts_stalled) hw hwaits
  have hblock : Meeting.pair.block = .blank := rfl
  rw [hfailed, hblock] at hproposed
  rw [hnone, hblock] at hsuccesses
  have hother : (Journal.handingBlock ⟨0⟩ ⟨1⟩).id ≠ Block.blank.id := by decide +kernel
  have hdistinct : x.Distinct := by
    refine ⟨Digest.not_collides_of_nodup ?_, ?_⟩
    · rw [hproposed]
      decide +kernel
    · rw [hproposed]
      decide +kernel
  obtain ⟨hchain, hheight, hparent, -, -⟩ :=
    chained_of_reachable Cluster.start_paired hx hdistinct
  rw [hsuccesses] at hchain hheight hparent
  obtain ⟨hid, hplace, hfirst⟩ := hchain [] _ List.prefix_rfl
  refine ⟨x, ⟨.blank, b⟩, hx, hdistinct, hidle, hproposed, hother, hsuccesses, rfl, hid, hplace,
    hfirst, hheight, ?_⟩
  exact hparent.trans hid

end Chronicle

end QuorumLedger
