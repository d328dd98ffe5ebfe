import QuorumLedger.Proofs.Consensus.Backing
import QuorumLedger.Proofs.Consensus.Convergence

namespace QuorumLedger

-- The first of the messages that is about a block.
def firstOf (d : Digest) (messages : List Message) : Option Message :=
  messages.find? fun m => m.blockId = d

theorem firstOf_append_singleton (d : Digest) (messages : List Message) (m : Message) :
    firstOf d (messages ++ [m]) =
      (firstOf d messages).or (if m.blockId = d then some m else none) := by
  by_cases h : m.blockId = d <;> simp [firstOf, h]

-- A message with another height and the same seal.
def Message.withHeight (m : Message) (height : Height) : Message :=
  { m with block := { m.block with height } }

namespace Replica

variable {t : Thresholds} {view : LedgerView} {seen : List Message} {r r' : Replica}

-- A block that was not delivered yet is stored as it first counted.
def Keeps (seen : List Message) (r : Replica) : Prop :=
  ∀ d, d ∉ r.finalized →
    (r.blocks.get? d).map (·.height) = (firstOf d seen).map (·.block.height)

namespace Keeps

theorem startRun (h : r.Backed t view) (view' : LedgerView) : (r.startRun view').Keeps [] := by
  intro d hd
  have hgone : decide (d ∈ r.delivered) = false :=
    decide_eq_false fun hmem => hd (h.delivered d hmem)
  simp [Replica.startRun, hgone, firstOf]

theorem counting (h : r.Keeps seen) (m : Message) (s : Seal) :
    (r.counting m s).Keeps (seen ++ [m]) := by
  intro d hd
  have hbefore := h d hd
  rw [firstOf_append_singleton]
  simp only [Replica.counting, Table.get?_set]
  by_cases hid : m.blockId = d
  · subst hid
    cases hget : r.blocks.get? m.blockId <;> cases hfirst : firstOf m.blockId seen <;>
      simp [hget, hfirst] at hbefore
    · simp [Block.collect, Block.withoutVotes]
    · simp [Block.collect, hbefore]
  · simp [hid, hbefore]

theorem congr (h : r.Keeps seen) (hblocks : r'.blocks = r.blocks)
    (hfinal : r.finalized ⊆ r'.finalized) : r'.Keeps seen := by
  intro d hd
  rw [hblocks]
  exact h d fun hmem => hd (hfinal hmem)

theorem act (h : r.Keeps seen) {actions : List Action} (hact : Act r actions r') :
    r'.Keeps seen := by
  cases hact with
  | @echo d active pending =>
      obtain ⟨signer, hnext⟩ := vote_snd { r with tally := r.tally.clearSend } .echo d Round.echo
      rw [hnext]
      exact h
  | @ready d round tally active mark call =>
      obtain ⟨signer, hnext⟩ := vote_snd { r with tally } .ready d round
      rw [hnext]
      exact h
  | @deliver d active declared enough => exact h.congr rfl (List.subset_cons_self d _)

end Keeps

-- The heights that are told are those of first copies.
structure Tells (t : Thresholds) (view : LedgerView) (seen : List Message) (done : List Action)
    (r : Replica) : Prop where
  backed : r.Backed t view
  owes : ∃ owed, r.Owes t owed
  keeps : r.Keeps seen
  heights : ∀ d height, .delivered d height ∈ done →
    (firstOf d seen).map (·.block.height) = some height

namespace Tells

variable {done : List Action}

theorem counting (h : r.Tells t view seen done) {m : Message} {s : Seal} (hs : r.Accepts m s) :
    (r.counting m s).Tells t view (seen ++ [m]) done where
  backed := h.backed.counting hs
  owes := h.owes.imp fun _ howes => howes.counting h.backed hs
  keeps := h.keeps.counting m s
  heights := by
    intro d height hd
    obtain ⟨first, hfirst, hheight⟩ := Option.map_eq_some_iff.mp (h.heights d height hd)
    rw [firstOf_append_singleton, hfirst]
    exact congrArg some hheight

theorem act {P : Block → Prop} (h : r.Tells t view seen done) (hstores : r.Stores P)
    {actions : List Action} (hact : Act r actions r') :
    r'.Tells t view seen (done ++ actions) := by
  obtain ⟨owed, howes⟩ := h.owes
  have hnext := Delivers.act hstores h.backed howes hact
  refine ⟨hnext.backed, ⟨_, hnext.owes⟩, h.keeps.act hact, fun d' height hd' => ?_⟩
  rcases List.mem_append.mp hd' with hd' | hd'
  · exact h.heights d' height hd'
  · cases hact with
    | echo active pending =>
        obtain ⟨m, b, heq, -⟩ := mem_vote hd'
        cases heq
    | ready active mark call =>
        obtain ⟨m, b, heq, -⟩ := mem_vote hd'
        cases heq
    | @deliver d active declared enough =>
        obtain ⟨hnew, ⟨b, hb, -⟩, -⟩ := h.backed.deliver active enough
        have hkept := h.keeps d hnew
        cases List.mem_singleton.mp hd'
        rw [← hkept, hb]
        rfl

theorem outcome (h : r.Tells t view seen done) (hstores : r.Stores fun _ => True)
    (batch : List Message) :
    (r.outcome batch).2.Tells t view (seen ++ r.counted batch) (done ++ (r.outcome batch).1) :=
  (hstores.outcome_induct (I := fun seen done r => r.Tells t view seen done)
    (fun _ _ _ _ => trivial) batch seen done (fun _ _ => trivial)
    (fun _ _ _ _ _ h hs => h.counting hs)
    (fun _ _ _ m h => ⟨h.backed.following m, h.owes, h.keeps, h.heights⟩)
    (fun _ _ _ _ _ hstores h hact => h.act hstores hact) h
    fun _ => ⟨h.backed.withTally _ (fun _ => rfl) rfl, h.owes, h.keeps, h.heights⟩).2

end Tells

end Replica

namespace Session

-- What stands behind the blocks of a session.
structure Keeping (t : Thresholds) (view : LedgerView) (s : Session) : Prop where
  standing : ∃ owed, s.replica.Standing t view owed
  keeps : s.replica.Keeps s.counted

variable {t : Thresholds} {view : LedgerView} {s : Session}

theorem keeping_start (seat : Seat) (v : ValidatorId) (earlier : List Replica.Call)
    (view : LedgerView) :
    (start ((seat.replica v).after earlier) view).Keeping seat.thresholds view := by
  obtain ⟨owed, h⟩ := (Replica.standing_create seat v).after earlier
  exact ⟨⟨owed, h.stores.startRun view, h.backed.startRun view, h.owes.startRun view⟩,
    .startRun h.backed view⟩

theorem Keeping.tells (h : s.Keeping t view) : s.replica.Tells t view s.counted [] := by
  obtain ⟨owed, hstanding⟩ := h.standing
  exact ⟨hstanding.backed, ⟨owed, hstanding.owes⟩, h.keeps, by simp⟩

theorem Keeping.answer (h : s.Keeping t view) {c : Replica.Call} (hc : c.isStart = false) :
    (s.answer c).Keeping t view := by
  have htells := h.tells
  obtain ⟨owed, hstanding⟩ := h.standing
  obtain ⟨-, given, left, -, -, hnext⟩ := hstanding.answer c
  have hview : c.viewAfter view = view := by cases c <;> first | rfl | cases hc
  rw [hview] at hnext
  refine ⟨⟨left, by rw [s.answer_eq hc]; exact hnext⟩, ?_⟩
  cases c with
  | startRun view => cases hc
  | takeDelivered =>
      rw [answer_takeDelivered]
      exact h.keeps.congr rfl (List.Subset.refl _)
  | propose b =>
      obtain ⟨signer, hsigner⟩ := s.replica.propose_snd b
      rw [answer_propose, hsigner]
      exact h.keeps
  | batch messages =>
      cases hrole : s.replica.role.participates with
      | false =>
          rw [answer_batch_of_crash hrole]
          exact h.keeps
      | true =>
          rw [answer_batch_of_participates hstanding.stores.proper hrole]
          exact (htells.outcome hstanding.stores messages).keeps

theorem Keeping.run (h : s.Keeping t view) {calls : List Replica.Call}
    (hcalls : ∀ c ∈ calls, c.isStart = false) : (s.run calls).Keeping t view := by
  induction calls generalizing s with
  | nil => exact h
  | cons c rest ih =>
      obtain ⟨hc, hrest⟩ := List.forall_mem_cons.mp hcalls
      exact ih (h.answer hc) hrest

theorem Keeping.height_of_delivers (h : s.Keeping t view) {batch : List Message} {d : Digest}
    {height : Height} (hd : .delivered d height ∈ (s.replica.answer (.batch batch)).1) :
    (firstOf d (s.answer (.batch batch)).counted).map (·.block.height) = some height := by
  obtain ⟨owed, hstanding⟩ := h.standing
  obtain ⟨hrole, hd⟩ := Replica.mem_outcome_of_mem_answer hstanding.stores.proper hd
  rw [answer_batch_of_participates hstanding.stores.proper hrole]
  exact (h.tells.outcome hstanding.stores batch).heights d height hd

end Session

namespace Delivery

-- The first message about the block that counted in the run.
def first? (D : Delivery) : Option Message :=
  firstOf D.block D.heard

theorem height_first? (D : Delivery) : D.first?.map (·.block.height) = some D.height :=
  ((Session.keeping_start D.seat D.self D.earlier D.view).run D.within).height_of_delivers
    D.delivered

theorem exists_first (D : Delivery) :
    ∃ m ∈ D.heard, m.blockId = D.block ∧ m.block.height = D.height := by
  obtain ⟨m, hm, hheight⟩ := Option.map_eq_some_iff.mp D.height_first?
  exact ⟨m, List.mem_of_find?_eq_some hm, by simpa using List.find?_some hm, hheight⟩

-- Later copies do not touch the one that is stored, whatever their height. So if all that counted
-- came with the height under which the block was proposed, that height is told.
theorem height_eq_iff {D E : Delivery} (h : D.block = E.block) :
    (D.height = E.height ↔
        D.first?.map (·.block.height) = E.first?.map (·.block.height)) ∧
      ∀ height, (∀ m ∈ D.heard ++ E.heard, m.blockId = D.block → m.block.height = height) →
        D.height = height ∧ E.height = height := by
  refine ⟨?_, fun height hall => ?_⟩
  · rw [D.height_first?, E.height_first?, Option.some.injEq]
  · obtain ⟨m, hm, hid, hheight⟩ := D.exists_first
    obtain ⟨m', hm', hid', hheight'⟩ := E.exists_first
    exact ⟨hheight ▸ hall m (List.mem_append_left _ hm) hid,
      hheight' ▸ hall m' (List.mem_append_right _ hm') (hid'.trans h.symm)⟩

-- The READYs of two are handed to the third one after the other, or together.
theorem height_eq_iff_three :
    ∃ D E : Delivery, D.block = E.block ∧ D.height = ⟨1⟩ ∧ E.height = ⟨1⟩ := by
  have hcalls : ∀ c ∈ [Replica.Call.batch [Roster.ballot ⟨1⟩]], c.isStart = false := by
    simp [Replica.Call.isStart]
  have hslow : Action.deliveredIn (((Roster.seated ⟨0⟩).run
      [.batch [Roster.ballot ⟨1⟩]]).replica.answer (.batch [Roster.ballot ⟨2⟩])).1 =
        [Block.blank.id] := by decide +kernel
  have hfast : Action.deliveredIn (((Roster.seated ⟨0⟩).run []).replica.answer
      (.batch [Roster.ballot ⟨1⟩, Roster.ballot ⟨2⟩])).1 = [Block.blank.id] := by decide +kernel
  have hheights : ∀ m ∈ (((Roster.seated ⟨0⟩).run [.batch [Roster.ballot ⟨1⟩]]).answer
        (.batch [Roster.ballot ⟨2⟩])).counted ++
      (((Roster.seated ⟨0⟩).run []).answer
        (.batch [Roster.ballot ⟨1⟩, Roster.ballot ⟨2⟩])).counted, m.block.height = ⟨1⟩ := by
    decide +kernel
  obtain ⟨D, -, hblock, hD⟩ := exists_ofThree _ hcalls (hslow ▸ List.mem_cons_self)
  obtain ⟨E, -, hblock', hE⟩ := exists_ofThree _ (by simp) (hfast ▸ List.mem_cons_self)
  have hsame : D.block = E.block := hblock.trans hblock'.symm
  rw [← hD, ← hE] at hheights
  exact ⟨D, E, hsame, (height_eq_iff hsame).2 ⟨1⟩ fun m hm _ => hheights m hm⟩

end Delivery

namespace Meeting

-- Three honest members, none of them counted as faulty.
def three : Meeting where
  toRoster := .three
  leader := ⟨0⟩
  view := ⟨∅, []⟩
  block := .blank
  seats := fun v => ⟨if v = ⟨0⟩ then .proposer else .regular, ⟨3, 0⟩, [⟨0⟩, ⟨1⟩, ⟨2⟩],
    .steady .blank⟩
  leader_honest := by decide
  leader_proposes := rfl
  isHonest := by decide
  supplied := fun _ _ => Signer.steady_supplied _
  common := fun _ _ => rfl
  passes := five.passes
  enough := by decide

end Meeting

namespace Delivery

-- A delivery in the first run of an honest member. All that it was handed counted, and came from
-- honest members by way of a relay that may change heights.
structure Relayed (M : Meeting) (x : Exchange) (D : Delivery) : Prop where
  member : D.self ∈ M.honest
  seat : D.seat = M.seats D.self
  view : D.view = M.view
  earlier : D.earlier = []
  calls : D.calls = []
  counts : D.heard = D.batch
  sent : ∀ m ∈ D.batch, ∃ u ∈ M.honest, ∃ m' height,
    .broadcast m' ∈ (x.sessions u).done ∧ m = m'.withHeight height

-- A READY for the block without transactions.
structure IsReadyOf (u : ValidatorId) (m : Message) : Prop where
  kind : m.kind = .ready
  id : m.blockId = Block.blank.id
  valid : ∀ view, m.block.isValid view = true
  signer : m.signer? = some u

-- Heights are out of the reach of seals and of the ledger's check.
theorem IsReadyOf.withHeight {u : ValidatorId} {m : Message} (h : IsReadyOf u m)
    (height : Height) : IsReadyOf u (m.withHeight height) :=
  ⟨h.kind, h.id, h.valid, h.signer⟩

theorem isReadyOf_of_quiet {x : Exchange} (hx : Meeting.three.Reachable x)
    (hquiet : Meeting.three.Quiet x) (hproposed : x.proposed = true) {u : ValidatorId}
    (hu : u ∈ Meeting.three.honest) : ∃ m, .broadcast m ∈ (x.sessions u).done ∧ IsReadyOf u m := by
  have hsound := Meeting.sound_of_reachable hx
  have hmember := hsound.member u (Meeting.mem_members hu)
  obtain ⟨m, hm, hkind, hid⟩ := hsound.all_ready hquiet.heard hproposed u hu
  have hagrees : m.block.Agrees .blank := hmember.carries _ hm
  refine ⟨m, hm, hkind, hid, fun view => ?_, hmember.sealedBy _ hm m rfl⟩
  rw [hagrees.isValid]
  exact Block.isValid_iff.mpr (Block.check_blank view)

-- READYs of two are enough for a member.
theorem delivers_of_isReadyOf {v u₁ u₂ : ValidatorId} (hv : v ∈ Meeting.three.honest)
    (hne : u₁ ≠ u₂) {m₁ m₂ : Message} (h₁ : IsReadyOf u₁ m₁) (h₂ : IsReadyOf u₂ m₂) :
    let s := (Session.start ((Meeting.three.seats v).replica v) Meeting.three.view).answer
      (.batch [m₁, m₂])
    s.counted = [m₁, m₂] ∧ s.Delivers Block.blank.id := by
  intro s
  have hdiligent := Session.diligent_start (Meeting.three.isHonest v hv)
    (Meeting.three.supplied v hv) v Meeting.three.view
  have hall : ∀ m ∈ [m₁, m₂], m.kind = .ready ∧ m.blockId = Block.blank.id := by
    simp [h₁.kind, h₁.id, h₂.kind, h₂.id]
  have hcounted : s.counted = [m₁, m₂] := by
    change ((Session.start _ _).answer _).counted = _
    rw [hdiligent.counted_batch]
    refine Replica.counted_of_firstContacts ?_ ?_ (fun _ _ => List.not_mem_nil) ?_
    · simp only [List.forall_mem_cons]
      exact ⟨⟨_, h₁.signer, rfl⟩, ⟨_, h₂.signer, rfl⟩, by simp⟩
    · simp [h₁.signer, h₂.signer, hne]
    · simp [h₁.valid, h₂.valid]
  have hvotes : votesFor .ready Block.blank.id [m₁, m₂] = [m₁, m₂] :=
    List.filter_eq_self.mpr fun m hm => decide_eq_true (hall m hm)
  have hthresholds : s.replica.thresholds = ⟨3, 0⟩ :=
    (hdiligent.sameSetup_answer (c := .batch [m₁, m₂]) rfl).thresholds
  refine ⟨hcounted, (hdiligent.batch [m₁, m₂]).delivers ?_ fun m hm _ => ?_⟩
  · change s.replica.thresholds.delivers (votesFor _ _ s.counted).length = true
    rw [hthresholds, hcounted, hvotes]
    rfl
  · exact (hall m (hcounted ▸ hm)).2

-- Whatever height a relay gives to the READYs of two, a member delivers the block with it.
theorem exists_relayed {x : Exchange} (hx : Meeting.three.Reachable x)
    (hquiet : Meeting.three.Quiet x) (hproposed : x.proposed = true) {v u₁ u₂ : ValidatorId}
    (hv : v ∈ Meeting.three.honest) (hu₁ : u₁ ∈ Meeting.three.honest)
    (hu₂ : u₂ ∈ Meeting.three.honest) (hne : u₁ ≠ u₂) (height : Height) :
    ∃ D : Delivery, D.Relayed Meeting.three x ∧ D.self = v ∧ D.block = Block.blank.id ∧
      D.height = height := by
  obtain ⟨m₁, hm₁, hready₁⟩ := isReadyOf_of_quiet hx hquiet hproposed hu₁
  obtain ⟨m₂, hm₂, hready₂⟩ := isReadyOf_of_quiet hx hquiet hproposed hu₂
  obtain ⟨hcounted, height', hd⟩ :=
    delivers_of_isReadyOf hv hne (hready₁.withHeight height) (hready₂.withHeight height)
  rw [Session.answer_eq _ rfl] at hd
  have hd := (List.mem_append.mp hd).resolve_left List.not_mem_nil
  let D : Delivery := ⟨Meeting.three.seats v, v, [], Meeting.three.view, [], _, Block.blank.id,
    height', fun _ hc => absurd hc List.not_mem_nil, hd⟩
  have hheard : D.heard = [m₁.withHeight height, m₂.withHeight height] := hcounted
  refine ⟨D, ⟨hv, rfl, rfl, rfl, rfl, hheard, ?_⟩, rfl, rfl, ?_⟩
  · simp only [D, List.forall_mem_cons]
    exact ⟨⟨u₁, hu₁, m₁, height, hm₁, rfl⟩, ⟨u₂, hu₂, m₂, height, hm₂, rfl⟩, by simp⟩
  · obtain ⟨m, hm, -, hheight⟩ := D.exists_first
    have hheights : ∀ m ∈ [m₁.withHeight height, m₂.withHeight height],
        m.block.height = height := by simp [Message.withHeight]
    exact hheight ▸ hheights m (hheard ▸ hm)

-- So two honest members may disagree on the height of a block.
theorem not_height_eq_of_relayed :
    ¬ ∀ (M : Meeting) (x : Exchange) (D E : Delivery), M.Reachable x → M.faulty = ∅ →
      D.Relayed M x → E.Relayed M x → D.self ≠ E.self → D.block = E.block →
        D.height = E.height := by
  intro h
  obtain ⟨x, hx, hquiet, hproposed, -⟩ :=
    Meeting.exists_quiet (M := Meeting.three) (.propose .start rfl)
  have h₀ : (⟨0⟩ : ValidatorId) ∈ Meeting.three.honest := by decide
  have h₁ : (⟨1⟩ : ValidatorId) ∈ Meeting.three.honest := by decide
  have h₂ : (⟨2⟩ : ValidatorId) ∈ Meeting.three.honest := by decide
  obtain ⟨D, hD, hself, hblock, hheight⟩ :=
    exists_relayed hx hquiet hproposed h₀ h₁ h₂ (by decide) ⟨1⟩
  obtain ⟨E, hE, hself', hblock', hheight'⟩ :=
    exists_relayed hx hquiet hproposed h₁ h₂ h₀ (by decide) ⟨2⟩
  have hapart : D.self ≠ E.self := by
    rw [hself, hself']
    decide
  have hsame := h Meeting.three x D E hx rfl hD hE hapart (hblock.trans hblock'.symm)
  rw [hheight, hheight'] at hsame
  exact absurd hsame (by decide)

end Delivery

end QuorumLedger
