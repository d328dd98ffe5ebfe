import QuorumLedger.Wire.Envelope
import QuorumLedger.Proofs.OneTime.Signing
import QuorumLedger.Proofs.Wire.Fields

namespace QuorumLedger

namespace Wire.Compressed

theorem lengthFrom_replicate (total n : Nat) (bytes : Bytes) :
    lengthFrom total (List.replicate n 255 ++ bytes) = lengthFrom (total + 255 * n) bytes := by
  induction n generalizing total with
  | zero => rfl
  | succ n ih =>
      rw [List.replicate_succ, List.cons_append, lengthFrom, if_pos rfl, ih]
      congr 1
      omega

theorem lengthFrom_moreLength (total n : Nat) (bytes : Bytes) :
    lengthFrom total (moreLength n ++ bytes) = some (total + n, bytes) := by
  have hlast : (UInt8.ofNat (n % 255)).toNat = n % 255 :=
    UInt8.toNat_ofNat_of_lt' (Nat.lt_trans (Nat.mod_lt n (by decide)) (by decide))
  have hne : UInt8.ofNat (n % 255) ≠ 255 := by
    intro h
    have hlt := Nat.mod_lt n (y := 255) (by decide)
    rw [← hlast, h] at hlt
    exact absurd hlt (by decide)
  rw [moreLength, List.append_assoc, lengthFrom_replicate, List.singleton_append, lengthFrom,
    if_neg hne, hlast, Nat.add_assoc, Nat.div_add_mod]

theorem data_append (out : ByteArray) (bytes : Bytes) :
    (append out bytes).data.toList = out.data.toList ++ bytes := by
  induction bytes generalizing out with
  | nil => exact (List.append_nil _).symm
  | cons b rest ih =>
      rw [append, ih]
      simp

-- A sequence that ends with its literals ends the block.
theorem expandFrom_literals {limit : Nat} {out : ByteArray} {token : UInt8} {bytes rest : Bytes}
    (hlength : length (token.toNat / 16) bytes = some (rest.length, rest))
    (hlimit : out.size + rest.length ≤ limit) :
    expandFrom limit out (token :: bytes) = some (append out rest) := by
  rw [expandFrom]
  split
  · next hnone =>
      rw [hlength] at hnone
      cases hnone
  · next literals tail hsome =>
      rw [hlength] at hsome
      cases hsome
      simp only [List.take_length]
      rw [if_neg (by omega)]
      -- nothing is left behind the literals
      split
      · rfl
      · next hone => simp at hone
      · next htwo => simp at htwo

theorem expandFrom_eq_none {limit n : Nat} {out : ByteArray} {token : UInt8} {bytes rest : Bytes}
    (hlength : length (token.toNat / 16) bytes = some (n, rest)) (hlimit : limit < out.size + n) :
    expandFrom limit out (token :: bytes) = none := by
  rw [expandFrom]
  split
  · rfl
  · next literals tail hsome =>
      rw [hlength] at hsome
      cases hsome
      simp only [hlimit, or_true, if_true]

theorem size_literal (bytes : Bytes) :
    Bytes.toNat ((literal bytes).take 4) = bytes.length % Nat.pow 256 4 := by
  rw [literal, List.take_left' (Bytes.length_littleEndian 4 _), Bytes.toNat_littleEndian]

-- Behind the size there is one sequence, whose literals are everything.
theorem drop_literal (bytes : Bytes) :
    ∃ (token : UInt8) (more : Bytes), (literal bytes).drop 4 = token :: more ∧
      length (token.toNat / 16) more = some (bytes.length, bytes) := by
  rw [literal, List.drop_left' (Bytes.length_littleEndian 4 _)]
  split_ifs with hshort
  · refine ⟨_, _, rfl, ?_⟩
    have htoken : (UInt8.ofNat (16 * bytes.length)).toNat / 16 = bytes.length := by
      rw [UInt8.toNat_ofNat_of_lt' (Nat.lt_of_lt_of_le (Nat.mul_lt_mul_of_pos_left hshort
        (by decide)) (by decide)), Nat.mul_div_cancel_left _ (by decide)]
    rw [htoken, length, if_neg (by omega)]
  · refine ⟨_, _, rfl, ?_⟩
    have hn : 15 + (bytes.length - 15) = bytes.length := by omega
    have hmore := lengthFrom_moreLength 15 (bytes.length - 15) bytes
    rwa [hn] at hmore

theorem four_le_length_literal (bytes : Bytes) : 4 ≤ (literal bytes).length := by
  rw [literal, List.length_append, Bytes.length_littleEndian]
  exact Nat.le_add_right 4 _

theorem expand?_literal {bytes : Bytes} (h : bytes.length < Nat.pow 256 4) :
    expand? (literal bytes) = some bytes := by
  obtain ⟨token, more, hdrop, hlength⟩ := drop_literal bytes
  have hfits : ByteArray.empty.size + bytes.length ≤ bytes.length := by simp
  rw [expand?, size_literal, Nat.mod_eq_of_lt h, hdrop, expandFrom_literals hlength hfits,
    Option.map_some, data_append]
  rfl

-- The size of more bytes than it can count stays below their number, and so bounds them away.
theorem expand?_literal_eq_none {bytes : Bytes} (h : Nat.pow 256 4 ≤ bytes.length) :
    expand? (literal bytes) = none := by
  obtain ⟨token, more, hdrop, hlength⟩ := drop_literal bytes
  have hsmall : bytes.length % Nat.pow 256 4 < bytes.length :=
    Nat.lt_of_lt_of_le (Nat.mod_lt _ (by decide)) h
  rw [expand?, size_literal, hdrop, expandFrom_eq_none hlength (by simpa using hsmall),
    Option.map_none]

theorem four_le_of_expand? {wire bytes : Bytes} (h : expand? wire = some bytes) :
    4 ≤ wire.length := by
  by_contra hshort
  rw [expand?, List.drop_eq_nil_of_le (by omega), expandFrom] at h
  cases h

end Wire.Compressed

namespace Message

open Wire

theorem ofPayload_append {m : Message} (h : m.payload.length < sizeLimit) (extra : Bytes) :
    ofPayload (m.payload ++ extra) =
      if extra = [] then .ok m.withoutVotes else .error (.trailingBytes extra.length) := by
  unfold ofPayload
  rw [payload, (Reader.takes_message h).whole extra]
  cases extra <;> rfl

theorem ofPayload_of_cut {m : Message} (h : m.payload.length < sizeLimit) {front : Bytes}
    (hfront : front <+: m.payload) (hne : front ≠ m.payload) :
    ofPayload front = .error (.decode .malformed) := by
  unfold ofPayload
  rw [(Reader.takes_message h).cut front hfront hne]

theorem decode_of_expand? {wire bytes : Bytes} (h : Compressed.expand? wire = some bytes) :
    decode wire = ofPayload bytes := by
  have hlength := Compressed.four_le_of_expand? h
  rw [decode, if_neg (by omega), h]

-- What arrives of a message is the message, or nothing if it is too long to be expanded.
theorem eq_of_decode_encode {m m' : Message} (h : decode m.encode = .ok m') :
    m' = m.withoutVotes := by
  by_cases hshort : m.payload.length < Nat.pow 256 4
  · have hlimit : m.payload.length < sizeLimit := Nat.lt_trans hshort (by decide)
    rw [encode, decode_of_expand? (Compressed.expand?_literal hshort), ← List.append_nil m.payload,
      ofPayload_append hlimit, if_pos rfl] at h
    exact (Except.ok.inj h).symm
  · rw [decode, encode, Compressed.expand?_literal_eq_none (by omega)] at h
    split at h <;> cases h

-- Any compressed form of the payload will do, but not one of a part of it or of more.
theorem decode_self_delimiting {m : Message} (h : m.payload.length < Nat.pow 2 32) :
    (∀ wire, Compressed.expand? wire = some m.payload → decode wire = .ok m.withoutVotes) ∧
    (∀ wire extra, extra ≠ [] → Compressed.expand? wire = some (m.payload ++ extra) →
      decode wire = .error (.trailingBytes extra.length)) ∧
    (∀ wire front, front <+: m.payload → front ≠ m.payload →
      Compressed.expand? wire = some front → decode wire = .error (.decode .malformed)) ∧
    decode m.encode = .ok m.withoutVotes := by
  have hlimit : m.payload.length < sizeLimit := Nat.lt_trans h (by decide)
  have hwhole : ∀ wire, Compressed.expand? wire = some m.payload →
      decode wire = .ok m.withoutVotes := by
    intro wire hwire
    rw [decode_of_expand? hwire, ← List.append_nil m.payload, ofPayload_append hlimit, if_pos rfl]
  refine ⟨hwhole, ?_, ?_, hwhole _ (Compressed.expand?_literal h)⟩
  · intro wire extra hextra hwire
    rw [decode_of_expand? hwire, ofPayload_append hlimit, if_neg hextra]
  · intro wire front hfront hne hwire
    rw [decode_of_expand? hwire, ofPayload_of_cut hlimit hfront hne]

-- One transaction, everything signed, and a vote that stays where it was collected.
def signedEcho (k : PublicKey) (s : Signature) : Message where
  kind := .echo
  block :=
    { header := ⟨.zero, some .zero⟩
      height := ⟨1⟩
      transactions := [⟨⟨5⟩, ⟨1⟩, [⟨⟨1⟩, 0⟩], [⟨10, ⟨2⟩⟩], some k, some s⟩]
      sealedBy := some ⟨⟨3⟩, s, some k⟩
      votes := [⟨⟨2⟩, s, none, 1⟩] }
  sender := ⟨3⟩
  round := Round.echo

theorem length_payload_signedEcho (k : PublicKey) (s : Signature) :
    (signedEcho k s).payload.length < Nat.pow 2 16 := by
  simp (disch := decide) only [payload, putMessage, putBlock, putHeader, putTransaction, putSeal,
    putOptional, putList, putInput, putOutput, signedEcho, List.flatMap_cons, List.flatMap_nil,
    List.length_append, List.length_cons, List.length_nil, Bytes32.length_toList, length_putKey,
    length_putSignature, length_putNumber_of_le]
  decide

-- Each transaction takes at least a byte.
theorem length_transactions_le (m : Message) :
    m.block.transactions.length ≤ m.payload.length := by
  have hlist := length_le_length_putList putTransaction_ne_nil m.block.transactions
  simp only [payload, putMessage, putBlock, List.length_append]
  omega

theorem payload_ne_nil (m : Message) : m.payload ≠ [] :=
  List.append_ne_nil_of_left_ne_nil (putNumber_ne_nil _) _

theorem decode_signedEcho :
    ∃ m : Message, m = signedEcho KeyPair.blank.publicKey (KeyPair.blank.sign []) ∧
      m.payload.length < Nat.pow 2 32 ∧
      decode (Compressed.literal m.payload) = .ok m.withoutVotes ∧
      decode (Compressed.literal (m.payload ++ [7])) = .error (.trailingBytes 1) ∧
      decode (Compressed.literal m.payload.dropLast) = .error (.decode .malformed) ∧
      decode m.encode = .ok m.withoutVotes := by
  obtain ⟨m, hm⟩ : ∃ m, m = signedEcho KeyPair.blank.publicKey (KeyPair.blank.sign []) := ⟨_, rfl⟩
  have hshort : m.payload.length < Nat.pow 2 16 := hm ▸ length_payload_signedEcho _ _
  have hlength : m.payload.length < Nat.pow 2 32 := Nat.lt_trans hshort (by decide)
  have hlonger : (m.payload ++ [7]).length < Nat.pow 256 4 := by
    rw [List.length_append]
    exact Nat.lt_of_le_of_lt (Nat.succ_le_of_lt hshort) (by decide)
  have hfront : m.payload.dropLast <+: m.payload := List.dropLast_prefix _
  have hshorter : m.payload.dropLast.length < Nat.pow 256 4 :=
    Nat.lt_of_le_of_lt hfront.length_le hlength
  have hne : m.payload.dropLast ≠ m.payload := by
    intro h
    have hdrop := congrArg List.length h
    have hpos := List.length_pos_of_ne_nil m.payload_ne_nil
    rw [List.length_dropLast] at hdrop
    omega
  obtain ⟨hwhole, htrailing, hcut, hencode⟩ := decode_self_delimiting hlength
  exact ⟨m, hm, hlength, hwhole _ (Compressed.expand?_literal hlength),
    htrailing _ [7] (by decide) (Compressed.expand?_literal hlonger),
    hcut _ _ hfront hne (Compressed.expand?_literal hshorter), hencode⟩

end Message

end QuorumLedger
