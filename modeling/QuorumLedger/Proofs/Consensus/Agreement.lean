import QuorumLedger.Proofs.Consensus.Prompt
import QuorumLedger.Proofs.Consensus.Quorum

namespace QuorumLedger

namespace Roster

-- At the start of a run the honest members may have been through any other runs.
def Opens (R : Roster) (view : LedgerView) (σ : Assembly) : Prop :=
  ∀ v ∈ R.honest, ∃ (s : Seat) (calls : List Replica.Call),
    s.role.IsHonest ∧ s.thresholds = R.thresholds ∧
      σ v = .start ((s.replica v).after calls) view

-- Whether a vote stands in the name of a faulty member, or in that of a member that sent it.
def Vouched (R : Roster) (σ : Assembly) (m : Message) : Prop :=
  ∀ u, m.signer? = some u → u ∉ R.faulty → u ∈ R.members ∧ (σ u).Sent m.kind m.blockId

-- Whether an honest member ever counts a vote that its supposed sender had not sent by then.
def Strays (R : Roster) : Assembly → List (ValidatorId × Replica.Call) → Prop
  | _, [] => False
  | σ, (v, c) :: rest =>
    (v ∈ R.honest ∧ ∃ m ∈ (σ v).replica.countedIn c, m.kind ≠ .send ∧ ¬ R.Vouched σ m) ∨
      R.Strays (σ.call v c) rest

-- No validator's vote counts twice with the same honest member.
def CountsOnce (R : Roster) (σ : Assembly) : Prop :=
  ∀ v ∈ R.honest, ∀ kind d, kind ≠ .send → (voters kind d (σ v).counted).Nodup

-- Whether some honest member counted a quorum of ECHOs.
def Echoed (R : Roster) (σ : Assembly) (d : Digest) : Prop :=
  ∃ v ∈ R.honest, R.thresholds.echoQuorum ≤ (votesFor .echo d (σ v).counted).length

structure Coherent (R : Roster) (σ : Assembly) : Prop where
  grounded : ∀ v ∈ R.honest, (σ v).Grounded
  thresholds : ∀ v ∈ R.honest, (σ v).replica.thresholds = R.thresholds
  signed : ∀ v ∈ R.honest, ∀ m ∈ (σ v).counted, m.signer?.isSome
  vouched : ∀ v ∈ R.honest, ∀ m ∈ (σ v).counted, m.kind ≠ .send → R.Vouched σ m
  ready : ∀ v ∈ R.honest, ∀ d, (σ v).Sent .ready d → R.Echoed σ d

variable {R : Roster} {σ : Assembly}

-- The honest members may differ in their ledgers.
def Begins (R : Roster) (σ : Assembly) : Prop :=
  ∀ v ∈ R.honest, ∃ (s : Seat) (calls : List Replica.Call) (view : LedgerView),
    s.role.IsHonest ∧ s.thresholds = R.thresholds ∧
      σ v = .start ((s.replica v).after calls) view

theorem Opens.begins {view : LedgerView} (h : R.Opens view σ) : R.Begins σ := by
  intro v hv
  obtain ⟨s, calls, hhonest, hthresholds, hs⟩ := h v hv
  exact ⟨s, calls, view, hhonest, hthresholds, hs⟩

theorem Begins.fresh (h : R.Begins σ) {v : ValidatorId} (hv : v ∈ R.honest) :
    (σ v).counted = [] ∧ (σ v).done = [] := by
  obtain ⟨s, calls, view, -, -, hs⟩ := h v hv
  rw [hs]
  exact ⟨rfl, rfl⟩

theorem coherent_of_begins (h : R.Begins σ) : R.Coherent σ := by
  constructor
  · intro v hv
    obtain ⟨s, calls, view, hhonest, -, hs⟩ := h v hv
    obtain ⟨hstores, hseat⟩ := Replica.stores_after s v calls
    rw [hs]
    refine ⟨.start hstores view, ?_⟩
    change ((s.replica v).after calls).role.IsHonest
    exact hseat.role ▸ hhonest
  · intro v hv
    obtain ⟨s, calls, view, -, hthresholds, hs⟩ := h v hv
    rw [hs]
    exact (Replica.stores_after s v calls).2.thresholds.trans hthresholds
  · exact fun v hv m hm => absurd hm (by simp [(h.fresh hv).1])
  · exact fun v hv m hm => absurd hm (by simp [(h.fresh hv).1])
  · rintro v hv d ⟨m, hm, -⟩
    exact absurd hm (by simp [(h.fresh hv).2])

theorem Echoed.call {d : Digest} (h : R.Echoed σ d) (v : ValidatorId) {c : Replica.Call}
    (hc : c.isStart = false) : R.Echoed (σ.call v c) d := by
  obtain ⟨w, hw, hquorum⟩ := h
  exact ⟨w, hw, hquorum.trans ((σ.extends_call v hc w).length_votesFor _ _)⟩

theorem Vouched.call {m : Message} (h : R.Vouched σ m) (v : ValidatorId) {c : Replica.Call}
    (hc : c.isStart = false) : R.Vouched (σ.call v c) m := by
  intro u hu hfaulty
  obtain ⟨hmember, hsent⟩ := h u hu hfaulty
  exact ⟨hmember, (σ.extends_call v hc u).sent hsent⟩

theorem CountsOnce.of_extends {σ' : Assembly} (h : R.CountsOnce σ')
    (hext : ∀ v, (σ v).Extends (σ' v)) : R.CountsOnce σ :=
  fun v hv kind d hkind => (h v hv kind d hkind).sublist ((hext v).voters kind d)

-- The voters whose votes an honest member counted: as many members as there are votes.
theorem card_voters {kind : MessageKind} {d : Digest} {messages : List Message}
    (hkind : kind ≠ .send) (hsigned : ∀ m ∈ messages, m.signer?.isSome)
    (hvouched : ∀ m ∈ messages, m.kind ≠ .send → R.Vouched σ m)
    (hnodup : (voters kind d messages).Nodup) :
    (voters kind d messages).toFinset ⊆ R.members ∧
      (voters kind d messages).toFinset.card = (votesFor kind d messages).length := by
  constructor
  · intro u hu
    obtain ⟨m, hm, rfl, -, hsigner⟩ := mem_voters.mp (List.mem_toFinset.mp hu)
    by_cases hfaulty : u ∈ R.faulty
    · exact R.faulty_subset hfaulty
    · exact (hvouched m hm hkind u hsigner hfaulty).1
  · rw [List.toFinset_card_of_nodup hnodup, length_voters hsigned]

-- What holds of every message that an honest member counted before a call and of those that the
-- call adds holds of all that it counted after.
theorem forall_counted_call {v : ValidatorId} {c : Replica.Call} (hc : c.isStart = false)
    {Q : Message → Prop} (hold : ∀ w ∈ R.honest, ∀ m ∈ (σ w).counted, Q m)
    (hnew : v ∈ R.honest → ∀ m ∈ (σ v).replica.countedIn c, Q m) :
    ∀ w ∈ R.honest, ∀ m ∈ (σ.call v c w).counted, Q m := by
  refine Assembly.forall_call (I := fun _ s => ∀ m ∈ s.counted, Q m) hold fun hv m hm => ?_
  rw [Session.answer_eq _ hc] at hm
  exact (List.mem_append.mp hm).elim (hold v hv m) (hnew hv m)

theorem Coherent.grounded_call (h : R.Coherent σ) {v : ValidatorId} {c : Replica.Call}
    (hc : c.isStart = false) :
    ∀ w ∈ R.honest, (σ.call v c w).Grounded ∧
      (σ.call v c w).replica.thresholds = R.thresholds := by
  refine Assembly.forall_call
    (I := fun _ s => s.Grounded ∧ s.replica.thresholds = R.thresholds)
    (fun w hw => ⟨h.grounded w hw, h.thresholds w hw⟩) fun hv => ?_
  have hsame := Replica.answer_sameSetup (h.grounded v hv).replica.stores.proper hc
  refine ⟨(h.grounded v hv).answer hc, ?_⟩
  rw [Session.answer_eq _ hc]
  exact hsame.thresholds.trans (h.thresholds v hv)

-- A READY for which no quorum of ECHOs was counted at home follows one of another honest member,
-- for which by induction somebody did count one.
theorem Coherent.call (h : R.Coherent σ) {v : ValidatorId} {c : Replica.Call}
    (hc : c.isStart = false)
    (hnew : v ∈ R.honest → ∀ m ∈ (σ v).replica.countedIn c, m.kind ≠ .send → R.Vouched σ m)
    (honce : R.CountsOnce (σ.call v c)) : R.Coherent (σ.call v c) := by
  have hgrounded := h.grounded_call (v := v) hc
  have hsigned := forall_counted_call (v := v) hc h.signed fun _ m hm =>
    Replica.isSome_signer_of_mem_countedIn hm
  have hvouched := forall_counted_call (v := v) hc h.vouched hnew
  refine ⟨fun w hw => (hgrounded w hw).1, fun w hw => (hgrounded w hw).2, hsigned,
    fun w hw m hm hkind => (hvouched w hw m hm hkind).call v hc, ?_⟩
  rintro w hw _ ⟨m, hm, hready, rfl⟩
  have hcause := (hgrounded w hw).1.replica.ready m hm hready
  rw [(hgrounded w hw).2] at hcause
  rcases hcause with hechoes | hreadies
  · exact ⟨w, hw, hechoes⟩
  · obtain ⟨hmembers, hcard⟩ := card_voters (d := m.blockId) (by decide : MessageKind.ready ≠ .send)
      (hsigned w hw) (hvouched w hw) (honce w hw _ _ (by decide))
    obtain ⟨u, hu, hvoter⟩ := exists_honest_mem hmembers (hcard ▸ hreadies)
    obtain ⟨m', hm', hkind, hd, hsigner⟩ := mem_voters.mp (List.mem_toFinset.mp hvoter)
    have hsent := (hvouched w hw m' hm' (by simp [hkind]) u hsigner (Finset.mem_sdiff.mp hu).2).2
    rw [hkind, hd] at hsent
    exact (h.ready u hu _ hsent).call v hc

theorem Coherent.run (h : R.Coherent σ) {calls : List (ValidatorId × Replica.Call)}
    (hcalls : ∀ e ∈ calls, e.2.isStart = false) (hstrays : ¬ R.Strays σ calls)
    (honce : R.CountsOnce (σ.run calls)) : R.Coherent (σ.run calls) := by
  induction calls generalizing σ with
  | nil => exact h
  | cons e rest ih =>
      obtain ⟨he, hrest⟩ := List.forall_mem_cons.mp hcalls
      obtain ⟨hnow, hlater⟩ := not_or.mp hstrays
      have honce' : R.CountsOnce (σ.call e.1 e.2) :=
        honce.of_extends ((σ.call e.1 e.2).extends_run hrest)
      refine ih (h.call he ?_ honce') hrest hlater honce
      intro hv m hm hkind
      by_contra hvouched
      exact hnow ⟨hv, m, hm, hkind, hvouched⟩

theorem Coherent.echoed_of_delivers (h : R.Coherent σ) (honce : R.CountsOnce σ) {v : ValidatorId}
    (hv : v ∈ R.honest) {d : Digest} (hd : (σ v).Delivers d) : R.Echoed σ d := by
  obtain ⟨height, hd⟩ := hd
  have henough := (h.grounded v hv).replica.delivered d height hd
  rw [h.thresholds v hv] at henough
  obtain ⟨hmembers, hcard⟩ := card_voters (d := d) (by decide : MessageKind.ready ≠ .send)
    (h.signed v hv) (h.vouched v hv) (honce v hv _ _ (by decide))
  obtain ⟨u, hu, hvoter⟩ := exists_honest_mem hmembers
    (hcard ▸ Replica.readyQuorum_le_of_delivers henough)
  obtain ⟨m, hm, hkind, rfl, hsigner⟩ := mem_voters.mp (List.mem_toFinset.mp hvoter)
  have hsent := (h.vouched v hv m hm (by simp [hkind]) u hsigner (Finset.mem_sdiff.mp hu).2).2
  rw [hkind] at hsent
  exact h.ready u hu _ hsent

-- The voters behind a quorum of ECHOs, of whom the honest ones did send an ECHO.
theorem Coherent.quorum_of_echoed (h : R.Coherent σ) (honce : R.CountsOnce σ) {d : Digest}
    (hd : R.Echoed σ d) :
    ∃ A ⊆ R.members, R.thresholds.echoQuorum ≤ A.card ∧
      ∀ u ∈ R.honest, u ∈ A → (σ u).Sent .echo d := by
  obtain ⟨w, hw, hquorum⟩ := hd
  obtain ⟨hmembers, hcard⟩ := card_voters (d := d) (by decide : MessageKind.echo ≠ .send)
    (h.signed w hw) (h.vouched w hw) (honce w hw _ _ (by decide))
  refine ⟨_, hmembers, hcard ▸ hquorum, fun u hu hvoter => ?_⟩
  obtain ⟨m, hm, hkind, rfl, hsigner⟩ := mem_voters.mp (List.mem_toFinset.mp hvoter)
  have hsent := (h.vouched w hw m hm (by simp [hkind]) u hsigner (Finset.mem_sdiff.mp hu).2).2
  rwa [hkind] at hsent

-- An honest member echoes every SEND that it is left with after a batch, whoever sealed it and
-- whatever it echoed before; with an even sum of committee and faults two quorums of ECHOs may
-- share faulty members only; and the first vote in a name counts unchecked, even in that of an
-- honest member or of no member at all. Each of these alone can split a committee. Nothing else
-- does.
theorem eq_of_delivers {view : LedgerView} (hopens : R.Opens view σ)
    {calls : List (ValidatorId × Replica.Call)} (hcalls : ∀ e ∈ calls, e.2.isStart = false)
    (honce : R.CountsOnce (σ.run calls)) {v w : ValidatorId} (hv : v ∈ R.honest)
    (hw : w ∈ R.honest) {d e : Digest} (hd : (σ.run calls v).Delivers d)
    (he : (σ.run calls w).Delivers e) :
    d = e ∨ (∃ u ∈ R.honest, (σ.run calls u).Sent .echo d ∧ (σ.run calls u).Sent .echo e) ∨
      (Even (R.thresholds.validators.toNat + R.thresholds.faulty.toNat) ∧
        R.faulty.card = R.thresholds.faulty.toNat) ∨ R.Strays σ calls := by
  by_cases hstrays : R.Strays σ calls
  · exact .inr (.inr (.inr hstrays))
  · have hcoherent := (coherent_of_begins hopens.begins).run hcalls hstrays honce
    obtain ⟨A, hA, hquorumA, hsentA⟩ :=
      hcoherent.quorum_of_echoed honce (hcoherent.echoed_of_delivers honce hv hd)
    obtain ⟨B, hB, hquorumB, hsentB⟩ :=
      hcoherent.quorum_of_echoed honce (hcoherent.echoed_of_delivers honce hw he)
    rcases exists_honest_mem_both hA hB hquorumA hquorumB with ⟨u, hu, huA, huB⟩ | heven
    · exact .inr (.inl ⟨u, hu, hsentA u hu huA, hsentB u hu huB⟩)
    · exact .inr (.inr (.inl heven))

def three : Roster where
  thresholds := ⟨3, 0⟩
  members := {⟨0⟩, ⟨1⟩, ⟨2⟩}
  faulty := ∅
  card_members := rfl
  faulty_subset := by decide
  card_faulty := by decide

def threeSeat : Seat :=
  ⟨.regular, ⟨3, 0⟩, [⟨0⟩, ⟨1⟩, ⟨2⟩], .steady .blank⟩

def seated : Assembly :=
  fun v => .start (threeSeat.replica v) ⟨∅, []⟩

def ballot (u : ValidatorId) : Message :=
  ⟨.ready, { Block.blank with sealedBy := some ⟨u, ⟨.replicate keyBits .zero⟩, none⟩ }, u,
    Round.readyFromEcho⟩

-- Two of the members get READYs in the names of two.
def balloting : List (ValidatorId × Replica.Call) :=
  [⟨0⟩, ⟨1⟩].map fun v => (v, .batch [ballot ⟨0⟩, ballot ⟨1⟩])

theorem isValid_ballot (u : ValidatorId) (view : LedgerView) :
    (ballot u).block.isValid view = true := by
  have hagrees : (ballot u).block.Agrees .blank := ⟨rfl, rfl, rfl⟩
  rw [hagrees.isValid]
  exact Block.isValid_iff.mpr (Block.check_blank view)

theorem counted_ballots (v : ValidatorId) :
    (seated v).replica.counted [ballot ⟨0⟩, ballot ⟨1⟩] = [ballot ⟨0⟩, ballot ⟨1⟩] := by
  have hboth : [ballot ⟨0⟩, ballot ⟨1⟩] = [⟨0⟩, ⟨1⟩].map ballot := rfl
  rw [hboth]
  refine Replica.counted_of_firstContacts ?_ (by decide) ?_ ?_
  · exact List.forall_mem_map.mpr fun u _ => ⟨u, rfl, rfl⟩
  · exact List.forall_mem_map.mpr fun _ _ => List.not_mem_nil
  · exact List.forall_mem_map.mpr fun u _ => isValid_ballot u _

theorem diligent_seated (v : ValidatorId) : (seated v).Diligent := by
  have hhonest : threeSeat.role.IsHonest := rfl
  exact Session.diligent_start hhonest (Signer.steady_supplied _) v ⟨∅, []⟩

theorem answer_ballots (v : ValidatorId) :
    ((seated v).answer (.batch [ballot ⟨0⟩, ballot ⟨1⟩])).counted = [ballot ⟨0⟩, ballot ⟨1⟩] := by
  rw [(diligent_seated v).counted_batch]
  exact counted_ballots v

theorem delivers_ballots (v : ValidatorId) :
    ∃ d, ((seated v).answer (.batch [ballot ⟨0⟩, ballot ⟨1⟩])).Delivers d := by
  have hid : ∀ u, (ballot u).blockId = Block.blank.id := fun _ => rfl
  have hkind : ∀ u, (ballot u).kind = .ready := fun _ => rfl
  have hvotes : (votesFor .ready Block.blank.id
      ((seated v).answer (.batch [ballot ⟨0⟩, ballot ⟨1⟩])).counted).length = 2 := by
    rw [answer_ballots]
    simp [votesFor, hid, hkind]
  have hsame := ((diligent_seated v).sameSetup_answer
    (c := .batch [ballot ⟨0⟩, ballot ⟨1⟩]) rfl).thresholds
  have henough : (seated v).replica.thresholds.delivers 2 = true := rfl
  rw [← hsame, ← hvotes] at henough
  exact ((diligent_seated v).batch _).exists_delivers henough

theorem eq_of_delivers_three :
    ∃ d e, (seated.run balloting ⟨0⟩).Delivers d ∧ (seated.run balloting ⟨1⟩).Delivers e ∧
      (d = e ∨ (∃ u ∈ three.honest,
          (seated.run balloting u).Sent .echo d ∧ (seated.run balloting u).Sent .echo e) ∨
        (Even (three.thresholds.validators.toNat + three.thresholds.faulty.toNat) ∧
          three.faulty.card = three.thresholds.faulty.toNat) ∨ three.Strays seated balloting) := by
  have hopens : three.Opens ⟨∅, []⟩ seated := fun _ _ => ⟨threeSeat, [], rfl, rfl, rfl⟩
  have hfirst : seated.run balloting ⟨0⟩ =
      (seated ⟨0⟩).answer (.batch [ballot ⟨0⟩, ballot ⟨1⟩]) := by
    simp [Assembly.run, Assembly.call, balloting]
  have hsecond : seated.run balloting ⟨1⟩ =
      (seated ⟨1⟩).answer (.batch [ballot ⟨0⟩, ballot ⟨1⟩]) := by
    simp [Assembly.run, Assembly.call, balloting]
  have hthird : seated.run balloting ⟨2⟩ = seated ⟨2⟩ := by
    simp [Assembly.run, Assembly.call, balloting]
  have honce : three.CountsOnce (seated.run balloting) := by
    intro v hv kind d _
    have hcases : v = ⟨0⟩ ∨ v = ⟨1⟩ ∨ v = ⟨2⟩ := by simpa [three, honest] using hv
    have hvoters : ([ballot ⟨0⟩, ballot ⟨1⟩].filterMap Message.signer?).Nodup := by
      simp [ballot, Message.signer?]
    have hballots : (voters kind d [ballot ⟨0⟩, ballot ⟨1⟩]).Nodup :=
      hvoters.sublist ((List.filter_sublist).filterMap _)
    rcases hcases with rfl | rfl | rfl
    · rw [hfirst, answer_ballots]
      exact hballots
    · rw [hsecond, answer_ballots]
      exact hballots
    · rw [hthird]
      exact List.nodup_nil
  obtain ⟨d, hd⟩ := delivers_ballots ⟨0⟩
  obtain ⟨e, he⟩ := delivers_ballots ⟨1⟩
  rw [← hfirst] at hd
  rw [← hsecond] at he
  exact ⟨d, e, hd, he, eq_of_delivers hopens (by simp [balloting, Replica.Call.isStart]) honce
    (by decide) (by decide) hd he⟩

end Roster

end QuorumLedger
