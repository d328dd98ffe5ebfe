import Mathlib.Data.List.Induction
import QuorumLedger.Proofs.Consensus.Calls
import QuorumLedger.Proofs.OneTime.Signing

namespace QuorumLedger

namespace Message

-- Sealed by a validator with one key, with another disclosed as the next.
def SealedWith (m : Message) (v : ValidatorId) (key next : PublicKey) : Prop :=
  ∃ signature, m.block.sealedBy = some ⟨v, signature, some next⟩ ∧
    (key.verify (Block.signingDigest m.blockId v (some next)).toList signature).isValid = true

-- The key that a message discloses for the next one.
def nextKey? (m : Message) : Option PublicKey :=
  m.block.sealedBy.bind (·.nextKey)

theorem SealedWith.nextKey {m : Message} {v : ValidatorId} {key next : PublicKey}
    (h : m.SealedWith v key next) : m.nextKey? = some next := by
  obtain ⟨signature, hs, -⟩ := h
  simp [nextKey?, hs]

end Message

-- Each message discloses the key that the next one is sealed with.
def Chained (v : ValidatorId) : PublicKey → List Message → PublicKey → Prop
  | key, [], last => key = last
  | key, m :: rest, last => ∃ next, m.SealedWith v key next ∧ Chained v next rest last

theorem chained_append {v : ValidatorId} {key last : PublicKey} {xs ys : List Message} :
    Chained v key (xs ++ ys) last ↔ ∃ mid, Chained v key xs mid ∧ Chained v mid ys last := by
  induction xs generalizing key with
  | nil => simp [Chained]
  | cons m rest ih =>
      simp only [List.cons_append, Chained, ih]
      constructor
      · rintro ⟨next, hm, mid, hrest, hys⟩
        exact ⟨mid, ⟨next, hm, hrest⟩, hys⟩
      · rintro ⟨mid, ⟨next, hm, hrest⟩, hys⟩
        exact ⟨next, hm, mid, hrest, hys⟩

theorem chained_singleton {v : ValidatorId} {key last : PublicKey} {m : Message} :
    Chained v key [m] last ↔ m.SealedWith v key last := by
  simp [Chained]

-- What the last message of a chain discloses is the key at its end.
theorem Chained.nextKey_getLast {v : ValidatorId} {key last : PublicKey} {xs : List Message}
    (h : Chained v key xs last) {m : Message} (hm : m ∈ xs.getLast?) : m.nextKey? = some last := by
  obtain ⟨ys, rfl⟩ := List.getLast?_eq_some_iff.mp hm
  obtain ⟨mid, -, hlast⟩ := chained_append.mp h
  exact (chained_singleton.mp hlast).nextKey

namespace KeyChain

-- The key chain after messages, whether they count or not.
def follow (c : KeyChain ValidatorId) (messages : List Message) : KeyChain ValidatorId :=
  messages.foldl (fun c m => (m.block.checkSeal c).2) c

theorem follow_append (c : KeyChain ValidatorId) (xs ys : List Message) :
    c.follow (xs ++ ys) = (c.follow xs).follow ys :=
  List.foldl_append

theorem get?_checkSeal (c : KeyChain ValidatorId) (m : Message) (u : ValidatorId) :
    (m.block.checkSeal c).2.recorded.get? u =
      if m.signer? = some u then some m.nextKey? else c.recorded.get? u := by
  cases hs : m.block.sealedBy with
  | none => simp [Block.checkSeal, Message.signer?, hs]
  | some s =>
      simp [Block.checkSeal, checkAndAdvance, advance, Message.signer?, Message.nextKey?, hs]

-- What is recorded of a signer is what its last message disclosed.
theorem get?_follow (messages : List Message) (u : ValidatorId) :
    ((∅ : KeyChain ValidatorId).follow messages).recorded.get? u =
      (messages.filter fun m => m.signer? = some u).getLast?.map Message.nextKey? := by
  induction messages using List.reverseRecOn with
  | nil => rfl
  | append_singleton messages m ih =>
      rw [follow_append]
      change (m.block.checkSeal _).2.recorded.get? u = _
      rw [get?_checkSeal, ih]
      by_cases hm : m.signer? = some u <;> simp [hm]

-- The next message of a chain passes with everyone that followed it so far.
theorem isAccepted_of_chained {v : ValidatorId} {key mid next : PublicKey}
    {messages : List Message} {m : Message}
    (hchained : Chained v key (messages.filter fun m => m.signer? = some v) mid)
    (hm : m.SealedWith v mid next) :
    ∃ s, m.block.sealedBy = some s ∧
      (((∅ : KeyChain ValidatorId).follow messages).check s.signer
        (Block.sealDigest m.blockId s).toList s.signature).isAccepted = true := by
  obtain ⟨signature, hs, hvalid⟩ := hm
  refine ⟨_, hs, ?_⟩
  unfold check
  rw [get?_follow]
  cases hlast : (messages.filter fun m => m.signer? = some v).getLast? with
  | none => rfl
  | some last =>
      rw [Option.map_some, hchained.nextKey_getLast hlast]
      exact hvalid

end KeyChain

namespace Replica

theorem onMessage_keyChain (r : Replica) (m : Message) :
    (r.onMessage m).2.keyChain = (m.block.checkSeal r.keyChain).2 := by
  by_cases haccepts : ∃ s, r.Accepts m s
  · obtain ⟨s, hs⟩ := haccepts
    rw [onMessage_of_accepts hs]
    simp [counting, Block.checkSeal, KeyChain.checkAndAdvance, hs.sealedBy]
  · rw [onMessage_of_not_accepts (not_exists.mp haccepts)]
    rfl

theorem onMessages_keyChain (r : Replica) (batch : List Message) :
    (r.onMessages batch).keyChain = r.keyChain.follow batch := by
  induction batch generalizing r with
  | nil => rfl
  | cons m rest ih =>
      change ((r.onMessage m).2.onMessages rest).keyChain = _
      rw [ih, onMessage_keyChain]
      rfl

-- Key chains move on with every message, and with nothing else.
theorem outcome_keyChain {r : Replica} (hproper : r.tally.Proper) (batch : List Message) :
    (r.outcome batch).2.keyChain = r.keyChain.follow batch := by
  by_cases hdelivered : r.isDelivered
  · rw [outcome, if_pos hdelivered]
    exact r.onMessages_keyChain batch
  · exact (acts_outcome hproper (Bool.eq_false_iff.mpr hdelivered) batch).induct
      (I := fun _ r' => r'.keyChain = r.keyChain.follow batch) []
      (fun _ _ _ _ h hact => hact.frame.2.1.trans h) (onMessages_keyChain _ batch)

end Replica

end QuorumLedger
