import QuorumLedger.Proofs.Consensus.Declaring
import QuorumLedger.Proofs.Consensus.Delivery
import QuorumLedger.Proofs.Consensus.Sending

namespace QuorumLedger

namespace Signer

-- Whether every attempt succeeded that a signer made since it was in an earlier state.
def Succeeded (s earlier : Signer) : Prop :=
  ∀ n, earlier.attempts ≤ n → n < s.attempts → ∃ pair, s.source n = .ok pair

theorem Supplied.succeeded {s earlier : Signer} (h : earlier.Supplied)
    (hsource : s.source = earlier.source) : s.Succeeded earlier :=
  fun n _ _ => hsource ▸ h n

theorem source_rotate (s : Signer) : s.rotate.2.source = s.source := by
  unfold rotate
  split <;> rfl

theorem attempts_rotate (s : Signer) : s.rotate.2.attempts = s.attempts + 1 := by
  unfold rotate
  split <;> rfl

theorem Succeeded.of_rotate {s earlier : Signer} (h : s.rotate.2.Succeeded earlier) :
    s.Succeeded earlier := by
  intro n hfirst hn
  rw [← s.source_rotate]
  exact h n hfirst (by rw [attempts_rotate]; omega)

theorem Succeeded.exists_rotate {s earlier : Signer} (h : s.rotate.2.Succeeded earlier)
    (hfirst : earlier.attempts ≤ s.attempts) : ∃ keys, s.rotate.1 = .ok keys := by
  obtain ⟨pair, hpair⟩ := h s.attempts hfirst (by rw [attempts_rotate]; omega)
  rw [source_rotate] at hpair
  exact ⟨_, by rw [rotate, hpair]⟩

end Signer

namespace Replica

theorem signer_sign (r : Replica) (kind : MessageKind) (b : Block) (round : UInt16) :
    (r.sign kind b round).2.signer = r.signer.rotate.2 := by
  unfold sign Block.signWith
  cases r.signer.rotate with
  | mk outcome signer => cases outcome <;> rfl

theorem exists_sign {r : Replica} {keys : PrivateKey × PublicKey} (h : r.signer.rotate.1 = .ok keys)
    (kind : MessageKind) (b : Block) (round : UInt16) :
    ∃ m, (r.sign kind b round).1 = .ok m := by
  unfold sign Block.signWith
  cases hrotate : r.signer.rotate with
  | mk outcome signer =>
      rw [hrotate] at h
      cases h
      exact ⟨_, rfl⟩

theorem signer_vote {r : Replica} {d : Digest} (hd : (r.blocks.get? d).isSome) (kind : MessageKind)
    (round : UInt16) : (r.vote kind d round).2.signer = r.signer.rotate.2 := by
  obtain ⟨b, hb⟩ := Option.isSome_iff_exists.mp hd
  have hsign := r.signer_sign kind b round
  cases hs : r.sign kind b round with
  | mk outcome r' =>
      rw [hs] at hsign
      cases outcome <;> simpa only [vote, hb, hs] using hsign

theorem exists_vote {r : Replica} {keys : PrivateKey × PublicKey} (h : r.signer.rotate.1 = .ok keys)
    {d : Digest} (hd : (r.blocks.get? d).isSome) (kind : MessageKind) (round : UInt16) :
    ∃ m, (r.vote kind d round).1 = [.broadcast m] := by
  obtain ⟨b, hb⟩ := Option.isSome_iff_exists.mp hd
  obtain ⟨m, hm⟩ := exists_sign h kind b round
  cases hs : r.sign kind b round with
  | mk outcome r' =>
      rw [hs] at hm
      cases hm
      exact ⟨m, by simp only [vote, hb, hs]⟩

theorem Stores.exists_ready_vote {P : Block → Prop} {r : Replica} (hstores : r.Stores P)
    {keys : PrivateKey × PublicKey} (h : r.signer.rotate.1 = .ok keys) {d : Digest}
    (hd : (r.blocks.get? d).isSome) (round : UInt16) :
    ∃ a ∈ (r.vote .ready d round).1, a.isReadyFor d := by
  obtain ⟨m, hvote⟩ := exists_vote h hd .ready round
  have hsent : .broadcast m ∈ (r.vote .ready d round).1 := by
    rw [hvote]
    exact List.mem_singleton_self _
  obtain ⟨m', heq, hkind, hid, -⟩ := hstores.mem_vote hsent
  cases heq
  exact ⟨.broadcast m, hsent, by simp [Action.isReadyFor, Action.message?, hkind, hid]⟩

theorem signer_propose (r : Replica) (b : Block) :
    (r.answer (.propose b)).2.signer = r.signer ∨
      (r.answer (.propose b)).2.signer = r.signer.rotate.2 := by
  by_cases hrole : r.role.isProposer
  · have hsign := r.signer_sign .send b Round.send
    cases hs : r.sign .send b Round.send with
    | mk outcome r' =>
        rw [hs] at hsign
        refine .inr ?_
        cases outcome <;> simpa only [answer, propose, hrole, hs, if_true] using hsign
  · exact .inl (by simp [answer, propose, hrole])

theorem isSome_message_of_mem_vote {r : Replica} {kind : MessageKind} {d : Digest}
    {round : UInt16} : ∀ a ∈ (r.vote kind d round).1, a.message?.isSome := by
  intro a ha
  obtain ⟨m, b, rfl, -⟩ := mem_vote ha
  rfl

end Replica

namespace Action

-- Before every delivery stands a READY for the block.
def Heralded (done : List Action) : Prop :=
  ∀ front d height, front ++ [.delivered d height] <+: done → ∃ a ∈ front, a.isReadyFor d

theorem heralded_nil : Heralded [] := by
  intro front d height h
  simp at h

-- Messages that follow herald no delivery, and need not be heralded.
theorem Heralded.append_messages {done actions : List Action} (h : Heralded done)
    (hactions : ∀ a ∈ actions, a.message?.isSome) : Heralded (done ++ actions) := by
  intro front d height hstart
  rcases List.prefix_or_prefix_of_prefix hstart (List.prefix_append done actions) with hin | hout
  · exact h front d height hin
  · rcases List.prefix_concat_iff.mp hout with heq | ⟨rest, rfl⟩
    · exact h front d height (heq ▸ List.prefix_rfl)
    · rw [List.append_assoc, List.prefix_append_right_inj] at hstart
      have hmem := hstart.subset (List.mem_append_right rest (List.mem_singleton_self _))
      cases hactions _ hmem

theorem Heralded.append_delivered {done : List Action} (h : Heralded done) {d : Digest}
    (hready : ∃ a ∈ done, a.isReadyFor d) (height : Height) :
    Heralded (done ++ [.delivered d height]) := by
  intro front d' height' hstart
  rcases List.prefix_concat_iff.mp hstart with heq | hin
  · obtain ⟨rfl, hlast⟩ := List.append_inj' heq rfl
    cases hlast
    exact hready
  · exact h front d' height' hin

end Action

-- As long as signing succeeds, READY went out for what is marked, and before what was delivered.
structure Declared (opening : Signer) (done : List Action) (readySent : List Digest)
    (signer : Signer) : Prop where
  source : signer.source = opening.source
  attempts : opening.attempts ≤ signer.attempts
  sent : signer.Succeeded opening → ∀ d ∈ readySent, ∃ a ∈ done, a.isReadyFor d
  heralded : signer.Succeeded opening → Action.Heralded done

namespace Declared

variable {opening signer : Signer} {done actions : List Action} {readySent : List Digest}

theorem start (signer : Signer) : Declared signer [] [] signer :=
  ⟨rfl, Nat.le_refl _, by simp, fun _ => Action.heralded_nil⟩

theorem sent_append (h : Declared opening done readySent signer)
    (hok : signer.Succeeded opening) :
    ∀ d ∈ readySent, ∃ a ∈ done ++ actions, a.isReadyFor d := by
  intro d hd
  obtain ⟨a, ha, hready⟩ := h.sent hok d hd
  exact ⟨a, List.mem_append_left _ ha, hready⟩

-- Neither messages sent nor one more attempt to sign take anything away.
theorem append_messages (h : Declared opening done readySent signer)
    (hactions : ∀ a ∈ actions, a.message?.isSome) :
    Declared opening (done ++ actions) readySent signer :=
  ⟨h.source, h.attempts, h.sent_append, fun hok => (h.heralded hok).append_messages hactions⟩

theorem rotate (h : Declared opening done readySent signer) :
    Declared opening done readySent signer.rotate.2 where
  source := signer.source_rotate.trans h.source
  attempts := by
    rw [Signer.attempts_rotate]
    exact Nat.le_succ_of_le h.attempts
  sent := fun hok => h.sent hok.of_rotate
  heralded := fun hok => h.heralded hok.of_rotate

theorem mark (h : Declared opening done readySent signer) {d : Digest}
    (hd : signer.Succeeded opening → ∃ a ∈ done, a.isReadyFor d) :
    Declared opening done (d :: readySent) signer :=
  ⟨h.source, h.attempts, fun hok => List.forall_mem_cons.mpr ⟨hd hok, h.sent hok⟩, h.heralded⟩

theorem deliver (h : Declared opening done readySent signer) {d : Digest} (hd : d ∈ readySent)
    (height : Height) : Declared opening (done ++ [.delivered d height]) readySent signer :=
  ⟨h.source, h.attempts, h.sent_append,
    fun hok => (h.heralded hok).append_delivered (h.sent hok d hd) height⟩

end Declared

namespace Replica

variable {opening : Signer} {done : List Action} {r : Replica}

theorem declared_act {P : Block → Prop} (h : Declared opening done r.tally.readySent r.signer)
    (hstores : r.Stores P) {actions : List Action} {r' : Replica} (hact : Act r actions r') :
    Declared opening (done ++ actions) r'.tally.readySent r'.signer := by
  cases hact with
  | @echo d active pending =>
      have hsigner := signer_vote (r := { r with tally := r.tally.clearSend })
        (hstores.pending d pending) .echo Round.echo
      obtain ⟨signer, hnext⟩ := vote_snd { r with tally := r.tally.clearSend } .echo d Round.echo
      rw [hsigner, hnext]
      exact h.rotate.append_messages isSome_message_of_mem_vote
  | @ready d round tally active mark call =>
      obtain ⟨-, rfl⟩ := Tally.markReady_eq_true mark
      have hstored := hstores.isSome_of_callsReady call
      have hsigner := signer_vote
        (r := { r with tally := { r.tally with readySent := d :: r.tally.readySent } }) hstored
        .ready round
      obtain ⟨signer, hnext⟩ := vote_snd
        { r with tally := { r.tally with readySent := d :: r.tally.readySent } } .ready d round
      rw [hsigner, hnext]
      refine (h.rotate.append_messages isSome_message_of_mem_vote).mark fun hok => ?_
      obtain ⟨keys, hkeys⟩ := hok.exists_rotate h.attempts
      obtain ⟨a, ha, hready⟩ :=
        (hstores.withReadySent (d :: r.tally.readySent)).exists_ready_vote hkeys hstored round
      exact ⟨a, List.mem_append_right _ ha, hready⟩
  | @deliver d active declared enough => exact h.deliver declared _

theorem declared_outcome (h : Declared opening done r.tally.readySent r.signer)
    (hstores : r.Stores fun _ => True) (batch : List Message) :
    Declared opening (done ++ (r.outcome batch).1) (r.outcome batch).2.tally.readySent
      (r.outcome batch).2.signer :=
  (hstores.outcome_induct (I := fun _ done r => Declared opening done r.tally.readySent r.signer)
    (fun _ _ _ _ => trivial) batch [] done (fun _ _ => trivial)
    (fun _ _ _ _ _ h _ => by simpa [counting] using h) (fun _ _ _ _ h => h)
    (fun _ _ _ _ _ hstores h hact => declared_act h hstores hact) h fun _ => h).2

theorem declared_propose (h : Declared opening done r.tally.readySent r.signer) (b : Block) :
    Declared opening (done ++ (r.answer (.propose b)).1) (r.answer (.propose b)).2.tally.readySent
      (r.answer (.propose b)).2.signer := by
  obtain ⟨signer, hnext⟩ := r.propose_snd b
  have hsigner := r.signer_propose b
  have htally : (r.answer (.propose b)).2.tally = r.tally := by rw [hnext]
  rw [htally]
  refine Declared.append_messages ?_ fun a ha => ?_
  · rcases hsigner with hsame | hnext
    · rw [hsame]
      exact h
    · rw [hnext]
      exact h.rotate
  · obtain ⟨-, m, rfl, -⟩ := mem_propose ha
    rfl

end Replica

namespace Session

def run (s : Session) (calls : List Replica.Call) : Session :=
  calls.foldl answer s

-- What is known of the READYs of a run.
structure Readiness (t : Thresholds) (opening : Signer) (s : Session) : Prop where
  grounded : s.Grounded
  thresholds : s.replica.thresholds = t
  sparing : s.replica.Sparing s.done
  declared : Declared opening s.done s.replica.tally.readySent s.replica.signer

theorem readiness_start (seat : Seat) (hhonest : seat.role.IsHonest) (v : ValidatorId)
    (earlier : List Replica.Call) (view : LedgerView) :
    (start ((seat.replica v).after earlier) view).Readiness seat.thresholds
      ((seat.replica v).after earlier).signer := by
  obtain ⟨hstores, hseat⟩ := Replica.stores_after seat v earlier
  exact ⟨⟨.start hstores view, hseat.role ▸ hhonest⟩, hseat.thresholds,
    fun d => Nat.zero_le _, .start _⟩

theorem Readiness.answer {t : Thresholds} {opening : Signer} {s : Session}
    (h : s.Readiness t opening) {c : Replica.Call} (hc : c.isStart = false) :
    (s.answer c).Readiness t opening := by
  have hstores := h.grounded.replica.stores
  have hbrings := s.replica.brings_any c
  have hsame := Replica.answer_sameSetup hstores.proper hc
  have hsparing := h.sparing.answer (fun _ _ _ _ => trivial) hstores hc hbrings
  refine ⟨h.grounded.answer hc, ?_, ?_, ?_⟩
  · rw [s.answer_eq hc]
    exact hsame.thresholds.trans h.thresholds
  · rw [s.answer_eq hc]
    exact hsparing
  · cases c with
    | startRun view => cases hc
    | takeDelivered =>
        rw [s.answer_eq hc]
        exact h.declared.append_messages fun a ha => by cases ha
    | propose b =>
        rw [s.answer_eq hc]
        exact Replica.declared_propose h.declared b
    | batch messages =>
        rw [answer_batch hstores.proper h.grounded.honest]
        exact Replica.declared_outcome h.declared hstores messages

theorem Readiness.run {t : Thresholds} {opening : Signer} {s : Session} (h : s.Readiness t opening)
    {calls : List Replica.Call} (hcalls : ∀ c ∈ calls, c.isStart = false) :
    (s.run calls).Readiness t opening := by
  induction calls generalizing s with
  | nil => exact h
  | cons c rest ih =>
      obtain ⟨hc, hrest⟩ := List.forall_mem_cons.mp hcalls
      exact ih (h.answer hc) hrest

-- Any call may come next after those of the run so far, so this is about each READY of a run.
theorem readies_of_run {seat : Seat} (hhonest : seat.role.IsHonest) (v : ValidatorId)
    (earlier : List Replica.Call) (view : LedgerView) (calls : List Replica.Call)
    (hcalls : ∀ c ∈ calls, c.isStart = false) :
    let opening := start ((seat.replica v).after earlier) view
    let s := opening.run calls
    (∀ d, s.done.countP (Action.isReadyFor d) ≤ 1) ∧
      (∀ c, c.isStart = false → ∀ a ∈ (s.replica.answer c).1, ∀ m, a.message? = some m →
        m.kind = .ready →
        (∃ batch, c = .batch batch) ∧ seat.thresholds.CallsFor (s.answer c).counted m) ∧
      (s.replica.signer.Succeeded opening.replica.signer →
        ∀ front d height, front ++ [.delivered d height] <+: s.done →
          ∃ a ∈ front, a.isReadyFor d = true) := by
  intro opening s
  have h : s.Readiness seat.thresholds opening.replica.signer :=
    (readiness_start seat hhonest v earlier view).run hcalls
  refine ⟨fun d => ?_, fun c hc a ha m hm hkind => ?_, h.declared.heralded⟩
  · exact Nat.le_trans (h.sparing d) (Tally.marks_le_one _ d)
  · rw [← h.thresholds]
    exact h.grounded.callsFor_of_mem_answer hc ha hm hkind

open Replica (pairSeat pairing readyOf)

-- A run in which two READYs call for a third and deliver.
def pairOpening : Session :=
  start ((pairSeat.replica ⟨2⟩).after []) ⟨∅, []⟩

def pairBatch : Replica.Call :=
  .batch [readyOf ⟨0⟩, readyOf ⟨1⟩]

theorem isStart_pairing : ∀ c ∈ pairing, c.isStart = false := by
  simp [pairing, Replica.Call.isStart]

theorem succeeded_pairing :
    (pairOpening.run pairing).replica.signer.Succeeded pairOpening.replica.signer := by
  have hready := (readiness_start pairSeat rfl ⟨2⟩ [] ⟨∅, []⟩).run isStart_pairing
  exact (Signer.steady_supplied .blank).succeeded hready.declared.source

theorem readies_of_run_pair :
    pairSeat.role.IsHonest ∧ (∀ c ∈ pairing, c.isStart = false) ∧
      (∃ m, m.kind = .ready ∧
        Thresholds.CallsFor ⟨3, 0⟩ (pairOpening.answer pairBatch).counted m) ∧
      ∃ front d height rest, (pairOpening.run pairing).done =
          front ++ .delivered d height :: rest ∧
        (∃ a ∈ front, a.isReadyFor d = true) ∧
        (pairOpening.run pairing).done.countP (Action.isReadyFor d) ≤ 1 := by
  have hhonest : pairSeat.role.IsHonest := rfl
  obtain ⟨-, hcalls, -⟩ := readies_of_run hhonest ⟨2⟩ [] ⟨∅, []⟩ [] (by simp)
  obtain ⟨honce, -, hbefore⟩ := readies_of_run hhonest ⟨2⟩ [] ⟨∅, []⟩ pairing isStart_pairing
  refine ⟨hhonest, isStart_pairing, ?_, ?_⟩
  · have hkinds : (pairOpening.replica.answer pairBatch).1.map (fun a => a.message?.map (·.kind)) =
        [some .ready, none] := by decide +kernel
    obtain ⟨a, ha, hkind⟩ := List.mem_map.mp (hkinds ▸ List.mem_cons_self)
    obtain ⟨m, hm, hkind⟩ := Option.map_eq_some_iff.mp hkind
    exact ⟨m, hkind, (hcalls pairBatch rfl a ha m hm hkind).2⟩
  · have hdelivered : Action.deliveredIn (pairOpening.run pairing).done = [Block.blank.id] := by
      decide +kernel
    obtain ⟨a, ha, hd⟩ := List.mem_filterMap.mp (hdelivered ▸ List.mem_cons_self)
    obtain ⟨front, rest, hdone⟩ := List.append_of_mem ha
    cases a with
    | broadcast m => cases hd
    | sendToLeader m => cases hd
    | delivered d height =>
        refine ⟨front, d, height, rest, hdone, ?_, honce d⟩
        refine hbefore succeeded_pairing front d height ⟨rest, ?_⟩
        rw [List.append_assoc, List.singleton_append, ← hdone]
        rfl

-- Where nobody is expected to vote, the quorum of ECHOs is zero, but a READY still needs a vote.
def nobodySeat : Seat :=
  ⟨.regular, ⟨0, 0⟩, [], .steady .blank⟩

theorem not_callsFor_of_count :
    ¬ ∀ (seat : Seat) (v : ValidatorId) (earlier : List Replica.Call) (view : LedgerView)
        (calls : List Replica.Call) (c : Replica.Call), seat.role.IsHonest →
      (∀ c ∈ calls, c.isStart = false) → c.isStart = false →
      let opening := start ((seat.replica v).after earlier) view
      let s := opening.run calls
      (s.answer c).replica.signer.Succeeded opening.replica.signer →
      ∀ a ∈ (s.replica.answer c).1, ∀ m, a.message? = some m → m.kind = .ready →
        (m.round = Round.readyFromEcho ∧
            seat.thresholds.echoQuorum ≤ (votesFor .echo m.blockId (s.answer c).counted).length) ∨
          (m.round = Round.readyFromReady ∧
            ¬ seat.thresholds.echoQuorum ≤
              (votesFor .echo m.blockId (s.answer c).counted).length ∧
            seat.thresholds.readyQuorum ≤
              (votesFor .ready m.blockId (s.answer c).counted).length) := by
  intro h
  have hmarks : ((start (nobodySeat.replica ⟨2⟩) ⟨∅, []⟩).replica.answer
      (.batch [readyOf ⟨0⟩])).1.map (fun a => a.message?.map fun m => (m.kind, m.round)) =
        [some (.ready, Round.readyFromReady)] := by decide +kernel
  obtain ⟨a, ha, hmark⟩ := List.mem_map.mp (hmarks ▸ List.mem_cons_self)
  obtain ⟨m, hm, hmark⟩ := Option.map_eq_some_iff.mp hmark
  obtain ⟨hkind, hround⟩ := Prod.mk.inj hmark
  have hready := (readiness_start nobodySeat rfl ⟨2⟩ [] ⟨∅, []⟩).answer
    (c := .batch [readyOf ⟨0⟩]) rfl
  have hsigned := (Signer.steady_supplied .blank).succeeded hready.declared.source
  have hcalled := h nobodySeat ⟨2⟩ [] ⟨∅, []⟩ [] (.batch [readyOf ⟨0⟩]) rfl (by simp) rfl hsigned a
    ha m hm hkind
  rcases hcalled with ⟨hecho, -⟩ | ⟨-, hfew, -⟩
  · exact absurd (hround.symm.trans hecho) (by decide)
  · exact hfew (Nat.zero_le _)

end Session

end QuorumLedger
