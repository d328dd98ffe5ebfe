import QuorumLedger.Consensus.Replica
import QuorumLedger.Proofs.Consensus.Tally

namespace QuorumLedger

namespace Message

-- The validator whose seal a message carries.
def signer? (m : Message) : Option ValidatorId :=
  m.block.sealedBy.map (·.signer)

end Message

namespace Replica

-- What nothing changes.
structure SameSeat (r r' : Replica) : Prop where
  id : r'.id = r.id
  role : r'.role = r.role
  thresholds : r'.thresholds = r.thresholds
  committee : r'.committee = r.committee

-- What only the start of a new run changes.
structure SameSetup (r r' : Replica) : Prop extends SameSeat r r' where
  view : r'.view = r.view

theorem SameSeat.rfl {r : Replica} : r.SameSeat r :=
  ⟨.refl _, .refl _, .refl _, .refl _⟩

theorem SameSeat.trans {r r' r'' : Replica} (h : r.SameSeat r') (h' : r'.SameSeat r'') :
    r.SameSeat r'' :=
  ⟨h'.id.trans h.id, h'.role.trans h.role, h'.thresholds.trans h.thresholds,
    h'.committee.trans h.committee⟩

theorem SameSetup.rfl {r : Replica} : r.SameSetup r :=
  ⟨.rfl, .refl _⟩

theorem SameSetup.trans {r r' r'' : Replica} (h : r.SameSetup r') (h' : r'.SameSetup r'') :
    r.SameSetup r'' :=
  ⟨h.toSameSeat.trans h'.toSameSeat, h'.view.trans h.view⟩

theorem SameSetup.symm {r r' : Replica} (h : r.SameSetup r') : r'.SameSetup r :=
  ⟨⟨h.id.symm, h.role.symm, h.thresholds.symm, h.committee.symm⟩, h.view.symm⟩

-- What a message shows that counts: its seal is accepted, its block was not delivered before and
-- passes the rules of the ledger.
structure Accepts (r : Replica) (m : Message) (s : Seal) : Prop where
  sealedBy : m.block.sealedBy = some s
  accepted :
    (r.keyChain.check s.signer (Block.sealDigest m.blockId s).toList s.signature).isAccepted
  pending : m.blockId ∉ r.finalized
  passes : m.blockId ∈ r.verified ∨ m.block.isValid r.view

-- The state after a message that counts.
def counting (r : Replica) (m : Message) (s : Seal) : Replica :=
  { r with
    keyChain := r.keyChain.advance s.signer s.nextKey
    verified := if m.blockId ∈ r.verified then r.verified else m.blockId :: r.verified
    blocks := r.blocks.set m.blockId (((r.blocks.get? m.blockId).getD m.block.withoutVotes).collect
      ⟨s.signer, s.signature,
        (r.keyChain.check s.signer (Block.sealDigest m.blockId s).toList s.signature).verifyingKey,
        m.round⟩)
    tally := r.tally.take m.kind m.blockId }

-- The state after a message that does not count.
def following (r : Replica) (m : Message) : Replica :=
  { r with keyChain := (m.block.checkSeal r.keyChain).2 }

theorem onMessage_of_accepts {r : Replica} {m : Message} {s : Seal} (h : r.Accepts m s) :
    r.onMessage m = (true, r.counting m s) := by
  have hcheck : m.block.checkSeal r.keyChain =
      (some (s, r.keyChain.check s.signer (Block.sealDigest m.blockId s).toList s.signature),
        r.keyChain.advance s.signer s.nextKey) := by
    simp only [Block.checkSeal, h.sealedBy]
    rfl
  simp only [onMessage, hcheck, h.accepted, h.pending, Bool.not_true, Bool.false_eq_true, if_false]
  by_cases hv : m.blockId ∈ r.verified
  · simp only [verify, hv, if_true, counting]
    rfl
  · simp only [verify, hv, h.passes.resolve_left hv, if_true, if_false, counting]
    rfl

theorem onMessage_of_not_accepts {r : Replica} {m : Message} (h : ∀ s, ¬ r.Accepts m s) :
    r.onMessage m = (false, r.following m) := by
  unfold onMessage following
  cases hs : m.block.sealedBy with
  | none => simp [Block.checkSeal, hs]
  | some s =>
      have hcheck : m.block.checkSeal r.keyChain =
          (some (s, r.keyChain.check s.signer (Block.sealDigest m.blockId s).toList s.signature),
            r.keyChain.advance s.signer s.nextKey) := by
        simp only [Block.checkSeal, hs]
        rfl
      rw [hcheck]
      dsimp only
      split
      · rfl
      · rename_i haccepted
        split
        · rfl
        · rename_i hpending
          have hno : ¬ (m.blockId ∈ r.verified ∨ m.block.isValid r.view) := fun hp =>
            h s ⟨hs, by simpa using haccepted, hpending, hp⟩
          obtain ⟨hv, hvalid⟩ := not_or.mp hno
          simp [verify, hv, hvalid]

-- The first message in a name counts whatever its signature, if the block passes.
theorem accepts_of_firstContact {r : Replica} {m : Message} {s : Seal}
    (hs : m.block.sealedBy = some s) (hnew : r.keyChain.recorded.get? s.signer = none)
    (hpending : m.blockId ∉ r.finalized) (hvalid : m.block.isValid r.view = true) :
    r.Accepts m s := by
  refine ⟨hs, ?_, hpending, .inr hvalid⟩
  unfold KeyChain.check
  rw [hnew]
  rfl

theorem counting_sameSetup (r : Replica) (m : Message) (s : Seal) :
    r.SameSetup (r.counting m s) :=
  ⟨⟨rfl, rfl, rfl, rfl⟩, rfl⟩

theorem following_sameSetup (r : Replica) (m : Message) : r.SameSetup (r.following m) :=
  ⟨⟨rfl, rfl, rfl, rfl⟩, rfl⟩

-- The messages of a batch that count, in order.
def counted (r : Replica) : List Message → List Message
  | [] => []
  | m :: rest =>
    if (r.onMessage m).1 then m :: counted (r.onMessage m).2 rest
    else counted (r.onMessage m).2 rest

-- Messages in different names count if nothing was heard in any of the names before.
theorem counted_of_firstContacts {r : Replica} {batch : List Message}
    (hnew : ∀ m ∈ batch, ∃ u, m.signer? = some u ∧ r.keyChain.recorded.get? u = none)
    (hnodup : (batch.filterMap Message.signer?).Nodup)
    (hpending : ∀ m ∈ batch, m.blockId ∉ r.finalized)
    (hvalid : ∀ m ∈ batch, m.block.isValid r.view = true) : r.counted batch = batch := by
  induction batch generalizing r with
  | nil => rfl
  | cons m rest ih =>
      obtain ⟨⟨u, hu, hunknown⟩, hnew⟩ := List.forall_mem_cons.mp hnew
      obtain ⟨hp, hpending⟩ := List.forall_mem_cons.mp hpending
      obtain ⟨hv, hvalid⟩ := List.forall_mem_cons.mp hvalid
      obtain ⟨s, hs, rfl⟩ := Option.map_eq_some_iff.mp hu
      have haccepts := accepts_of_firstContact hs hunknown hp hv
      rw [List.filterMap_cons_some hu] at hnodup
      obtain ⟨hfirst, hnodup⟩ := List.nodup_cons.mp hnodup
      have hrest := ih (r := r.counting m s) (fun m' hm' => ?_) hnodup hpending hvalid
      · simp [counted, onMessage_of_accepts haccepts, hrest]
      · obtain ⟨u', hu', hunknown'⟩ := hnew m' hm'
        have hother : s.signer ≠ u' := fun h =>
          hfirst (List.mem_filterMap.mpr ⟨m', hm', hu'.trans (congrArg some h.symm)⟩)
        exact ⟨u', hu', by simpa [counting, KeyChain.advance, hother] using hunknown'⟩

-- An invariant of a replica and the messages that it counted, kept by every message of a batch.
theorem onMessages_induct {I : List Message → Replica → Prop} (batch seen : List Message)
    {r : Replica}
    (hcount : ∀ seen r m s, m ∈ batch → I seen r → r.Accepts m s → I (seen ++ [m]) (r.counting m s))
    (hfollow : ∀ seen r m, I seen r → I seen (r.following m)) (h : I seen r) :
    I (seen ++ r.counted batch) (r.onMessages batch) := by
  induction batch generalizing seen r with
  | nil => simpa [counted, onMessages] using h
  | cons m rest ih =>
      have hcount' : ∀ seen r m' s, m' ∈ rest → I seen r → r.Accepts m' s →
          I (seen ++ [m']) (r.counting m' s) :=
        fun seen r m' s hm' => hcount seen r m' s (List.mem_cons_of_mem m hm')
      by_cases haccepts : ∃ s, r.Accepts m s
      · obtain ⟨s, hs⟩ := haccepts
        have hnext := ih (seen ++ [m]) hcount' (hcount seen r m s List.mem_cons_self h hs)
        simpa [counted, onMessages, onMessage_of_accepts hs] using hnext
      · have hnext := ih seen hcount' (hfollow seen r m h)
        simpa [counted, onMessages, onMessage_of_not_accepts (not_exists.mp haccepts)] using hnext

theorem isSome_signer_of_mem_counted {r : Replica} {batch : List Message} {m : Message}
    (h : m ∈ r.counted batch) : m.signer?.isSome := by
  have hall := onMessages_induct (I := fun seen _ => ∀ m ∈ seen, m.signer?.isSome) batch [] (r := r)
    (fun seen r m s _ ih hs => by simpa [or_imp, forall_and, Message.signer?, hs.sealedBy] using ih)
    (fun _ _ _ h => h) (by simp)
  exact hall m (by simpa using h)

theorem onMessages_sameSetup (r : Replica) (batch : List Message) :
    r.SameSetup (r.onMessages batch) :=
  onMessages_induct (I := fun _ r' => r.SameSetup r') batch []
    (fun _ r' m s _ h _ => h.trans (r'.counting_sameSetup m s))
    (fun _ r' m h => h.trans (r'.following_sameSetup m)) .rfl

theorem onMessages_isDelivered (r : Replica) (batch : List Message) :
    (r.onMessages batch).isDelivered = r.isDelivered :=
  onMessages_induct (I := fun _ r' => r'.isDelivered = r.isDelivered) batch []
    (fun _ r' m s _ h _ => by simpa [counting, isDelivered] using h) (fun _ _ _ h => h) rfl

theorem onMessages_finalized (r : Replica) (batch : List Message) :
    (r.onMessages batch).finalized = r.finalized :=
  onMessages_induct (I := fun _ r' => r'.finalized = r.finalized) batch []
    (fun _ _ _ _ _ h _ => h) (fun _ _ _ h => h) rfl

-- What was delivered gets no more votes.
theorem counted_eq_nil {r : Replica} {batch : List Message}
    (h : ∀ m ∈ batch, m.blockId ∈ r.finalized) : r.counted batch = [] :=
  (onMessages_induct (I := fun seen r' => r'.finalized = r.finalized ∧ seen = []) batch []
    (fun _ _ m _ hm hold hs => absurd (hold.1.symm ▸ h m hm) hs.pending) (fun _ _ _ hold => hold)
    ⟨rfl, rfl⟩).2

theorem counted_append (r : Replica) (xs ys : List Message) :
    r.counted (xs ++ ys) = r.counted xs ++ (r.onMessages xs).counted ys := by
  induction xs generalizing r with
  | nil => rfl
  | cons m rest ih =>
      have hnext := ih (r.onMessage m).2
      simp only [List.cons_append, counted, hnext]
      split <;> rfl

theorem counted_sublist (r : Replica) (batch : List Message) : (r.counted batch).Sublist batch := by
  induction batch generalizing r with
  | nil => exact .slnil
  | cons m rest ih =>
      unfold counted
      split
      · exact (ih _).cons_cons m
      · exact (ih _).cons m

theorem onMessages_proper {r : Replica} (h : r.tally.Proper) (batch : List Message) :
    (r.onMessages batch).tally.Proper :=
  onMessages_induct (I := fun _ r' => r'.tally.Proper) batch []
    (fun _ _ m _ _ h _ => h.take m.kind m.blockId) (fun _ _ _ h => h) h

-- Whether a message counts does not depend on the votes.
theorem counted_withTally (r : Replica) (tally : Tally) (batch : List Message) :
    { r with tally }.counted batch = r.counted batch := by
  induction batch generalizing r tally with
  | nil => rfl
  | cons m rest ih =>
      by_cases haccepts : ∃ s, r.Accepts m s
      · obtain ⟨s, hs⟩ := haccepts
        have hs' : { r with tally }.Accepts m s := ⟨hs.sealedBy, hs.accepted, hs.pending, hs.passes⟩
        simp only [counted, onMessage_of_accepts hs, onMessage_of_accepts hs', if_true]
        rw [← ih (r.counting m s) (tally.take m.kind m.blockId)]
        rfl
      · have hno := not_exists.mp haccepts
        have hno' : ∀ s, ¬ { r with tally }.Accepts m s := fun s hs =>
          hno s ⟨hs.sealedBy, hs.accepted, hs.pending, hs.passes⟩
        simp only [counted, onMessage_of_not_accepts hno, onMessage_of_not_accepts hno']
        rw [← ih (r.following m) tally]
        rfl

end Replica

end QuorumLedger
