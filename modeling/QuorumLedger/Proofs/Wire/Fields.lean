import QuorumLedger.Wire.Payload
import QuorumLedger.Proofs.Wire.Reading

namespace QuorumLedger

theorem PerBit.ofList?_toList {α : Type} (xs : PerBit α) : PerBit.ofList? xs.toList = some xs := by
  rw [PerBit.ofList?, dif_pos xs.length_toList]
  rfl

theorem PublicKey.ofComponents_toList (k : PublicKey) :
    PublicKey.ofComponents k.zeros.toList k.ones.toList = .ok k := by
  rw [PublicKey.ofComponents, PerBit.ofList?_toList, PerBit.ofList?_toList]

theorem Signature.ofPreimages_toList (s : Signature) :
    Signature.ofPreimages s.preimages.toList = .ok s := by
  rw [Signature.ofPreimages, PerBit.ofList?_toList]

namespace Wire

theorem putInput_ne_nil (r : OutputRef) : putInput r ≠ [] :=
  List.append_ne_nil_of_left_ne_nil (putNumber_ne_nil _) _

theorem putOutput_ne_nil (o : Output) : putOutput o ≠ [] :=
  List.append_ne_nil_of_left_ne_nil (putNumber_ne_nil _) _

theorem putTransaction_ne_nil (t : Transaction) : putTransaction t ≠ [] :=
  List.append_ne_nil_of_left_ne_nil (putNumber_ne_nil _) _

theorem length_le_of_mem {α : Type} {put : α → Bytes} {xs : List α} {a : α} (h : a ∈ xs) :
    (put a).length ≤ (putList put xs).length := by
  obtain ⟨front, rest, rfl⟩ := List.append_of_mem h
  simp only [putList, List.flatMap_append, List.flatMap_cons, List.length_append]
  omega

theorem length_putNumber_of_le {n : Nat} (h : n ≤ 250) : (putNumber n).length = 1 := by
  rw [putNumber, if_pos h, List.length_singleton]

theorem length_putDigests (xs : PerBit Bytes32) :
    (putList Bytes32.toList xs.toList).length = 8195 := by
  rw [putList, List.length_append, Bytes.length_flatMap Bytes32.length_toList, xs.length_toList]
  rfl

theorem length_putKey (k : PublicKey) : (putKey k).length = 16390 := by
  rw [putKey, List.length_append, length_putDigests, length_putDigests]

theorem length_putSignature (s : Signature) : (putSignature s).length = 8195 :=
  length_putDigests s.preimages

namespace Reader

theorem takes_word32 (w : UInt32) : word32.Takes (putNumber w.toNat) w := by
  have hnumber : (number 4).Takes (putNumber w.toNat) w.toNat :=
    takes_number (.inr (.inl rfl)) w.toNat_lt
  have hmap := hnumber.map (g := UInt32.ofNat)
  rwa [UInt32.ofNat_toNat] at hmap

theorem takes_word64 (w : UInt64) : word64.Takes (putNumber w.toNat) w := by
  have hnumber : (number 8).Takes (putNumber w.toNat) w.toNat :=
    takes_number (.inr (.inr rfl)) w.toNat_lt
  have hmap := hnumber.map (g := UInt64.ofNat)
  rwa [UInt64.ofNat_toNat] at hmap

theorem takes_digests {xs : PerBit Bytes32} :
    (list bytes32).Takes (putList Bytes32.toList xs.toList) xs.toList :=
  takes_list (by rw [xs.length_toList]; decide) fun b _ => takes_bytes32 b

theorem takes_key (k : PublicKey) : key.Takes (putKey k) k :=
  takes_digests.bind (takes_digests.bind_nil (takes_require k.ofComponents_toList))

theorem takes_signature (s : Signature) : signature.Takes (putSignature s) s :=
  takes_digests.bind_nil (takes_require s.ofPreimages_toList)

theorem takes_input (r : OutputRef) : input.Takes (putInput r) r :=
  (takes_word32 r.tx.value).bind (takes_word32 r.index).map

theorem takes_output (o : Output) : output.Takes (putOutput o) o :=
  (takes_word64 o.value).bind (takes_word32 o.receiver.value).map

theorem takes_transaction {t : Transaction} (h : (putTransaction t).length < sizeLimit) :
    transaction.Takes (putTransaction t) t := by
  have hinputs := length_le_length_putList putInput_ne_nil t.inputs
  have houtputs := length_le_length_putList putOutput_ne_nil t.outputs
  simp only [putTransaction, List.length_append] at h
  refine (takes_word32 t.id.value).bind ((takes_word32 t.sender.value).bind ?_)
  refine (takes_list (by omega) fun r _ => takes_input r).bind ?_
  refine (takes_list (by omega) fun o _ => takes_output o).bind ?_
  refine (takes_optional fun k _ => takes_key k).bind ?_
  exact (takes_optional fun s _ => takes_signature s).map

theorem takes_seal (s : Seal) : sealOf.Takes (putSeal s) s :=
  (takes_word64 s.signer.value).bind
    ((takes_signature s.signature).bind (takes_optional fun k _ => takes_key k).map)

theorem takes_header (h : Header) : header.Takes (putHeader h) h :=
  (takes_bytes32 h.parent).bind (takes_optional fun b _ => takes_bytes32 b).map

theorem takes_block {b : Block} (h : (putBlock b).length < sizeLimit) :
    block.Takes (putBlock b) b.withoutVotes := by
  have hcount := length_le_length_putList putTransaction_ne_nil b.transactions
  simp only [putBlock, List.length_append] at h
  refine (takes_header b.header).bind ((takes_word64 b.height.value).bind ?_)
  refine (takes_list (by omega) fun t ht => takes_transaction ?_).bind ?_
  · have hle : (putTransaction t).length ≤ (putList putTransaction b.transactions).length :=
      length_le_of_mem ht
    omega
  · exact (takes_optional fun s _ => takes_seal s).map

theorem takes_kind (k : MessageKind) : kind.Takes (putNumber (kindNumber k)) k := by
  have hnumber : (number 4).Takes (putNumber (kindNumber k)) (kindNumber k) :=
    takes_number (.inr (.inl rfl)) (by cases k <;> decide)
  cases k <;> exact hnumber.bind_nil (takes_pure _)

theorem takes_message {m : Message} (h : (putMessage m).length < sizeLimit) :
    message.Takes (putMessage m) m.withoutVotes := by
  have hblock : (putBlock m.block).length < sizeLimit := by
    simp only [putMessage, List.length_append] at h
    omega
  refine (takes_kind m.kind).bind ((takes_block hblock).bind ?_)
  refine (takes_word64 m.sender.value).bind ?_
  have hnumber : (number 2).Takes (putNumber m.round.toNat) m.round.toNat :=
    takes_number (.inl rfl) m.round.toNat_lt
  have hmap := hnumber.map
    (g := fun n => (⟨m.kind, m.block.withoutVotes, m.sender, UInt16.ofNat n⟩ : Message))
  rwa [UInt16.ofNat_toNat] at hmap

end Reader

end Wire

end QuorumLedger
