import QuorumLedger.Proofs.Wire.RoundTrip
import QuorumLedger.Proofs.Wire.Spelling

namespace QuorumLedger

theorem PerBit.toList_of_ofList? {α : Type} {xs : List α} {v : PerBit α}
    (h : PerBit.ofList? xs = some v) : v.toList = xs := by
  unfold PerBit.ofList? at h
  split at h
  · cases h
    rfl
  · cases h

theorem PublicKey.ofComponents_eq_ok_iff {zeros ones : List Digest} {k : PublicKey} :
    PublicKey.ofComponents zeros ones = .ok k ↔ k.zeros.toList = zeros ∧ k.ones.toList = ones := by
  constructor
  · intro h
    unfold PublicKey.ofComponents at h
    split at h
    · next zeros' ones' hzeros hones =>
        cases h
        exact ⟨PerBit.toList_of_ofList? hzeros, PerBit.toList_of_ofList? hones⟩
    · cases h
    · cases h
  · rintro ⟨rfl, rfl⟩
    exact k.ofComponents_toList

theorem Signature.ofPreimages_eq_ok_iff {preimages : List Bytes32} {s : Signature} :
    Signature.ofPreimages preimages = .ok s ↔ s.preimages.toList = preimages := by
  constructor
  · intro h
    unfold Signature.ofPreimages at h
    split at h
    · next preimages' hpreimages =>
        cases h
        exact PerBit.toList_of_ofList? hpreimages
    · cases h
  · rintro rfl
    exact s.ofPreimages_toList

namespace Wire

namespace Form

def word16 : Form UInt16 :=
  fun w => Number 2 w.toNat

def word32 : Form UInt32 :=
  fun w => Number 4 w.toNat

def word64 : Form UInt64 :=
  fun w => Number 8 w.toNat

-- As many as a digest has bits, told once more in front of them.
def digests : Form (PerBit Bytes32) :=
  fun xs => InOrder (Number 8 keyBits :: xs.toList.map bytes32)

def key : Form PublicKey :=
  fun k => InOrder [digests k.zeros, digests k.ones]

def signature : Form Signature :=
  fun s => digests s.preimages

def input : Form OutputRef :=
  fun r => InOrder [word32 r.tx.value, word32 r.index]

def output : Form Output :=
  fun o => InOrder [word64 o.value, word32 o.receiver.value]

def transaction : Form Transaction :=
  fun t => InOrder [word32 t.id.value, word32 t.sender.value, list input t.inputs,
    list output t.outputs, optional key t.nextKey, optional signature t.signature]

def sealOf : Form Seal :=
  fun s => InOrder [word64 s.signer.value, signature s.signature, optional key s.nextKey]

def header : Form Header :=
  fun h => InOrder [bytes32 h.parent, optional bytes32 h.root]

-- Collected votes have no form.
def block : Form Block :=
  fun b bytes => b.votes = [] ∧ InOrder [header b.header, word64 b.height.value,
    list transaction b.transactions, optional sealOf b.sealedBy] bytes

def kind : Form MessageKind :=
  fun k => Number 4 (kindNumber k)

def message : Form Message :=
  fun m => InOrder [kind m.kind, block m.block, word64 m.sender.value, word16 m.round]

theorem digests_eq (xs : PerBit Bytes32) : digests xs = list bytes32 xs.toList := by
  rw [list, xs.length_toList]
  rfl

theorem Number.lt {width n : Nat} {bytes : Bytes} (h : Number width n bytes) (hwidth : 0 < width) :
    n < Nat.pow 256 width := by
  cases h with
  | byte small =>
      have hpow : Nat.pow 256 1 ≤ Nat.pow 256 width := Nat.pow_le_pow_right (by decide) hwidth
      exact Nat.lt_of_lt_of_le (Nat.lt_of_le_of_lt small (by decide)) hpow
  | tagged known fits holds =>
      exact Nat.lt_of_lt_of_le holds (Nat.pow_le_pow_right (by decide) fits)

theorem Number.not_nil {width n : Nat} : ¬ Number width n [] := by
  intro h
  cases h

theorem not_bytes32_nil (b : Bytes32) : ¬ bytes32 b [] := by
  intro h
  have hlength := b.length_toList
  rw [← show [] = b.toList from h] at hlength
  cases hlength

theorem not_inOrder_nil {field : Bytes → Prop} (h : ¬ field []) (rest : List (Bytes → Prop)) :
    ¬ InOrder (field :: rest) [] := by
  rintro ⟨front, tail, hsplit, hfield, -⟩
  obtain ⟨rfl, -⟩ := List.append_eq_nil_iff.mp hsplit.symm
  exact h hfield

end Form

namespace Reader

theorem reads_word32 : word32.Reads Form.word32 := by
  refine (reads_number 4).map fun n _ hn w => ⟨?_, ?_⟩
  · rintro rfl
    exact UInt32.ofNat_toNat
  · rintro rfl
    exact UInt32.toNat_ofNat_of_lt' (hn.lt (by decide))

theorem reads_word64 : word64.Reads Form.word64 := by
  refine (reads_number 8).map fun n _ hn w => ⟨?_, ?_⟩
  · rintro rfl
    exact UInt64.ofNat_toNat
  · rintro rfl
    exact UInt64.toNat_ofNat_of_lt' (hn.lt (by decide))

theorem reads_key : key.Reads Form.key := by
  have hlists : key.Reads fun k => InOrder
      [Form.list Form.bytes32 k.zeros.toList, Form.list Form.bytes32 k.ones.toList] := by
    refine .of_fields ((reads_list reads_bytes32).field fun zeros _ _ =>
      (reads_list reads_bytes32).field fun ones _ _ => reads_require fun k => ?_)
    rw [true_and, PublicKey.ofComponents_eq_ok_iff]
  refine hlists.of_iff fun k bytes => ?_
  rw [Form.key, Form.digests_eq, Form.digests_eq]

theorem reads_signature : signature.Reads Form.signature := by
  have hlist : signature.Reads fun s => InOrder [Form.list Form.bytes32 s.preimages.toList] := by
    refine .of_fields ((reads_list reads_bytes32).field fun preimages _ _ =>
      reads_require fun s => ?_)
    rw [true_and, Signature.ofPreimages_eq_ok_iff]
  refine hlist.of_iff fun s bytes => ?_
  rw [Form.signature, Form.digests_eq, inOrder_singleton]

theorem reads_input : input.Reads Form.input := by
  refine .of_fields (reads_word32.field fun tx _ _ => reads_word32.field fun index _ _ =>
    reads_pure (by simp) ?_)
  rintro r ⟨⟨-, rfl⟩, rfl⟩
  rfl

theorem reads_output : output.Reads Form.output := by
  refine .of_fields (reads_word64.field fun value _ _ => reads_word32.field fun receiver _ _ =>
    reads_pure (by simp) ?_)
  rintro o ⟨⟨-, rfl⟩, rfl⟩
  rfl

theorem reads_transaction : transaction.Reads Form.transaction := by
  refine .of_fields (reads_word32.field fun id _ _ => reads_word32.field fun sender _ _ =>
    (reads_list reads_input).field fun inputs _ _ =>
      (reads_list reads_output).field fun outputs _ _ =>
        (reads_optional reads_key).field fun nextKey _ _ =>
          (reads_optional reads_signature).field fun signature _ _ =>
            reads_pure (by simp) ?_)
  rintro t ⟨⟨⟨⟨⟨⟨-, rfl⟩, rfl⟩, rfl⟩, rfl⟩, rfl⟩, rfl⟩
  rfl

theorem reads_seal : sealOf.Reads Form.sealOf := by
  refine .of_fields (reads_word64.field fun signer _ _ => reads_signature.field fun signature _ _ =>
    (reads_optional reads_key).field fun nextKey _ _ => reads_pure (by simp) ?_)
  rintro s ⟨⟨⟨-, rfl⟩, rfl⟩, rfl⟩
  rfl

theorem reads_header : header.Reads Form.header := by
  refine .of_fields (reads_bytes32.field fun parent _ _ =>
    (reads_optional reads_bytes32).field fun root _ _ => reads_pure (by simp) ?_)
  rintro h ⟨⟨-, rfl⟩, rfl⟩
  rfl

theorem reads_block : block.Reads Form.block := by
  refine reads_header.field fun header _ _ => reads_word64.field fun height _ _ =>
    (reads_list reads_transaction).field fun transactions _ _ =>
      (reads_optional reads_seal).field fun sealedBy _ _ => reads_pure (by simp) ?_
  rintro ⟨header', height', transactions', sealedBy', votes⟩ ⟨⟨⟨⟨rfl, rfl⟩, rfl⟩, rfl⟩, rfl⟩
  rfl

theorem reads_kind : kind.Reads Form.kind where
  sound bytes k rest h := by
    obtain ⟨n, tail, hn, hk⟩ := exists_of_bind_eq_ok h
    obtain ⟨front, rfl, hform⟩ := (reads_number 4).sound _ _ _ hn
    split at hk
    · cases hk
      exact ⟨front, rfl, hform⟩
    · cases hk
      exact ⟨front, rfl, hform⟩
    · cases hk
      exact ⟨front, rfl, hform⟩
    · cases hk
  complete front k rest h := by
    have hn := (reads_number 4).complete front (kindNumber k) rest h
    rw [kind, bind_of_ok hn]
    cases k <;> rfl

theorem reads_message : message.Reads Form.message := by
  refine .of_fields (reads_kind.field fun kind _ _ => reads_block.field fun block _ _ =>
    reads_word64.field fun sender _ _ => (reads_number 2).field fun round _ hround =>
      reads_pure ?_ ?_)
  · have hn : (UInt16.ofNat round).toNat = round :=
      UInt16.toNat_ofNat_of_lt' (hround.lt (by decide))
    simp [hn]
  · rintro m ⟨⟨⟨⟨-, rfl⟩, rfl⟩, rfl⟩, rfl⟩
    rw [UInt16.ofNat_toNat]

-- Whether a list of these takes no more steps than there are bytes, whatever length it announces.
def Bounded {α : Type} (item : Reader α) : Prop :=
  ∀ n read bytes, items item n read bytes = items item (min n (bytes.length + 1)) read bytes

theorem bounded_bytes32 : bytes32.Bounded :=
  (reads_bytes32.advances Form.not_bytes32_nil).items_eq_items_min

theorem bounded_input : input.Bounded :=
  (reads_input.advances fun _ => Form.not_inOrder_nil Form.Number.not_nil _).items_eq_items_min

theorem bounded_output : output.Bounded :=
  (reads_output.advances fun _ => Form.not_inOrder_nil Form.Number.not_nil _).items_eq_items_min

theorem bounded_transaction : transaction.Bounded :=
  (reads_transaction.advances fun _ =>
    Form.not_inOrder_nil Form.Number.not_nil _).items_eq_items_min

end Reader

namespace Compressed

theorem size_append (out : ByteArray) (bytes : Bytes) :
    (append out bytes).size = out.size + bytes.length := by
  induction bytes generalizing out with
  | nil => rfl
  | cons b rest ih =>
      rw [append, ih, ByteArray.size_push, List.length_cons]
      omega

theorem size_expandFrom_le {limit : Nat} {out out' : ByteArray} {bytes : Bytes}
    (h : expandFrom limit out bytes = some out') : out'.size ≤ limit := by
  fun_induction expandFrom limit out bytes with
  | case4 out token bytes literals rest hlength front hfits out'' hend =>
      have hfront : front.length ≤ literals := List.length_take_le literals rest
      have hsize : out''.size = out.size + front.length := size_append out front
      rw [← Option.some.inj h]
      omega
  | case8 =>
      rename_i ih
      exact ih h
  | case1 | case2 | case3 | case5 | case6 | case7 => cases h

theorem length_expand?_le {wire payload : Bytes} (h : expand? wire = some payload) :
    payload.length ≤ Bytes.toNat (wire.take 4) := by
  obtain ⟨out, hout, rfl⟩ := Option.map_eq_some_iff.mp h
  exact size_expandFrom_le hout

end Compressed

end Wire

namespace Message

open Wire

-- The keys that a message discloses, and what it is signed with.
def disclosedKeys (m : Message) : List PublicKey :=
  m.block.transactions.filterMap (·.nextKey) ++ (m.block.sealedBy.bind (·.nextKey)).toList

def signatures (m : Message) : List Signature :=
  m.block.transactions.filterMap (·.signature) ++ (m.block.sealedBy.map (·.signature)).toList

theorem form_payload {m : Message} (h : m.payload.length < sizeLimit) :
    Form.message m.withoutVotes m.payload := by
  have hread := (Reader.takes_message h).whole []
  obtain ⟨front, hfront, hform⟩ := Reader.reads_message.sound _ _ _ hread
  rw [List.append_nil, List.append_nil] at hfront
  rwa [payload, hfront]

theorem ofPayload_eq_ok_iff {payload : Bytes} {m : Message} :
    ofPayload payload = .ok m ↔ Form.message m payload := by
  have hread : Reader.message payload = .ok (m, []) ↔ Form.message m payload := by
    simp [Reader.reads_message.eq_ok_iff]
  rw [← hread]
  unfold ofPayload
  split
  · next h => simp [h]
  · next h => simp [h]
  · next h => simp [h]

theorem ofPayload_eq_trailingBytes_iff {payload : Bytes} {n : Nat} :
    ofPayload payload = .error (.trailingBytes n) ↔
      ∃ m front rest, payload = front ++ rest ∧ Form.message m front ∧ rest ≠ [] ∧
        rest.length = n := by
  have hread : (∃ m rest, Reader.message payload = .ok (m, rest) ∧ rest ≠ [] ∧ rest.length = n) ↔
      ∃ m front rest, payload = front ++ rest ∧ Form.message m front ∧ rest ≠ [] ∧
        rest.length = n := by
    simp only [Reader.reads_message.eq_ok_iff]
    constructor
    · rintro ⟨m, rest, ⟨front, hsplit, hform⟩, hmore⟩
      exact ⟨m, front, rest, hsplit, hform, hmore⟩
    · rintro ⟨m, front, rest, hsplit, hform, hmore⟩
      exact ⟨m, rest, ⟨front, hsplit, hform⟩, hmore⟩
  rw [← hread]
  unfold ofPayload
  split
  · next h => simp [h]
  · next h => simp [h]
  · next h => simp [h]

theorem ofPayload_eq_decode_iff {payload : Bytes} :
    (∃ e, ofPayload payload = .error (.decode e)) ↔
      ∀ m front, front <+: payload → ¬ Form.message m front := by
  have hread : (∃ e, Reader.message payload = .error e) ↔
      ∀ m front, front <+: payload → ¬ Form.message m front := by
    constructor
    · rintro ⟨e, he⟩ m _ ⟨rest, rfl⟩ hform
      rw [Reader.reads_message.complete _ _ _ hform] at he
      cases he
    · intro hnone
      cases hmessage : Reader.message payload with
      | error e => exact ⟨e, rfl⟩
      | ok result =>
          obtain ⟨front, hsplit, hform⟩ := Reader.reads_message.sound _ _ _ hmessage
          exact absurd hform (hnone _ _ ⟨_, hsplit.symm⟩)
  rw [← hread]
  unfold ofPayload
  split
  · next h => simp [h]
  · next h => simp [h]
  · next h => simp [h]

-- What is said of the payload is said of what expands to it.
theorem decode_eq_iff {wire : Bytes} {verdict : Except CodecError Message}
    (hshort : verdict ≠ .error .messageTooShort) (hbroken : verdict ≠ .error .decompress) :
    decode wire = verdict ↔
      ∃ payload, Compressed.expand? wire = some payload ∧ ofPayload payload = verdict := by
  cases hexpand : Compressed.expand? wire with
  | some payload => simp [decode_of_expand? hexpand]
  | none =>
      refine iff_of_false ?_ (by simp)
      unfold decode
      split
      · exact hshort.symm
      · rw [hexpand]
        exact hbroken.symm

theorem ofPayload_ne (payload : Bytes) :
    ofPayload payload ≠ .error .messageTooShort ∧ ofPayload payload ≠ .error .decompress := by
  unfold ofPayload
  split <;> simp

theorem decode_eq_messageTooShort_iff {wire : Bytes} :
    decode wire = .error .messageTooShort ↔ wire.length < 4 := by
  refine ⟨fun h => ?_, fun h => if_pos h⟩
  by_contra hlong
  rw [decode, if_neg hlong] at h
  split at h
  · cases h
  · exact (ofPayload_ne _).1 h

theorem decode_eq_decompress_iff {wire : Bytes} :
    decode wire = .error .decompress ↔ 4 ≤ wire.length ∧ Compressed.expand? wire = none := by
  constructor
  · intro h
    unfold decode at h
    split at h
    · cases h
    · next hlong =>
        split at h
        · next hnone => exact ⟨Nat.le_of_not_lt hlong, hnone⟩
        · exact absurd h (ofPayload_ne _).2
  · rintro ⟨hlong, hnone⟩
    rw [decode, if_neg (Nat.not_lt_of_le hlong), hnone]

theorem votes_of_form {m : Message} {bytes : Bytes} (h : Form.message m bytes) :
    m.block.votes = [] := by
  obtain ⟨_, _, -, -, _, _, -, hblock, -⟩ := h
  exact hblock.1

-- Whatever arrives is a message to its last byte, or refused for the first reason there is. No
-- announced length makes reading go on: a list is given up when the bytes are, and the expansion
-- when it outgrows the size in front of it.
theorem decode_verdict (wire : Bytes) :
    (∀ m, decode wire = .ok m ↔
      ∃ payload, Compressed.expand? wire = some payload ∧ Form.message m payload) ∧
    (∀ m, decode wire = .ok m → m.block.votes = [] ∧
      (∀ k ∈ m.disclosedKeys, k.zeros.toList.length = 256 ∧ k.ones.toList.length = 256) ∧
      ∀ s ∈ m.signatures, s.preimages.toList.length = 256) ∧
    (decode wire = .error .messageTooShort ↔ wire.length < 4) ∧
    (decode wire = .error .decompress ↔ 4 ≤ wire.length ∧ Compressed.expand? wire = none) ∧
    (∀ n, decode wire = .error (.trailingBytes n) ↔
      ∃ payload, Compressed.expand? wire = some payload ∧ ∃ m front rest,
        payload = front ++ rest ∧ Form.message m front ∧ rest ≠ [] ∧ rest.length = n) ∧
    ((∃ e, decode wire = .error (.decode e)) ↔
      ∃ payload, Compressed.expand? wire = some payload ∧
        ∀ m front, front <+: payload → ¬ Form.message m front) ∧
    (∀ payload, Compressed.expand? wire = some payload →
      payload.length ≤ Bytes.toNat (wire.take 4)) ∧
    Reader.bytes32.Bounded ∧ Reader.input.Bounded ∧ Reader.output.Bounded ∧
      Reader.transaction.Bounded := by
  have hok : ∀ m, decode wire = .ok m ↔
      ∃ payload, Compressed.expand? wire = some payload ∧ Form.message m payload := by
    intro m
    rw [decode_eq_iff (by simp) (by simp)]
    simp only [ofPayload_eq_ok_iff]
  refine ⟨hok, fun m hm => ?_, decode_eq_messageTooShort_iff, decode_eq_decompress_iff, fun n => ?_,
    ?_, fun payload => Compressed.length_expand?_le, Reader.bounded_bytes32, Reader.bounded_input,
    Reader.bounded_output, Reader.bounded_transaction⟩
  · obtain ⟨payload, -, hform⟩ := (hok m).mp hm
    exact ⟨votes_of_form hform, fun k _ => ⟨k.zeros.length_toList, k.ones.length_toList⟩,
      fun s _ => s.preimages.length_toList⟩
  · rw [decode_eq_iff (by simp) (by simp)]
    simp only [ofPayload_eq_trailingBytes_iff]
  · have hdecode : ∀ e, decode wire = .error (.decode e) ↔
        ∃ payload, Compressed.expand? wire = some payload ∧
          ofPayload payload = .error (.decode e) :=
      fun e => decode_eq_iff (by simp) (by simp)
    simp only [hdecode, ← ofPayload_eq_decode_iff]
    constructor
    · rintro ⟨e, payload, hexpand, he⟩
      exact ⟨payload, hexpand, e, he⟩
    · rintro ⟨payload, hexpand, e, he⟩
      exact ⟨e, payload, hexpand, he⟩

end Message

end QuorumLedger
