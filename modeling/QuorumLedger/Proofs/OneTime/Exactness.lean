import QuorumLedger.Proofs.OneTime.Acceptance

namespace QuorumLedger

namespace Bytes

-- The first `width` bytes, with zeros in place of those that are missing.
def padded (width : Nat) (bytes : Bytes) : Bytes :=
  (bytes ++ List.replicate width 0).take width

theorem getElem?_padded (width : Nat) (bytes : Bytes) (i : Nat) :
    (bytes.padded width)[i]? = if i < width then some (bytes[i]?.getD 0) else none := by
  unfold padded
  rw [List.getElem?_take]
  by_cases hi : i < width
  · rw [if_pos hi, if_pos hi]
    by_cases hlength : i < bytes.length
    · rw [List.getElem?_append_left hlength, List.getElem?_eq_getElem hlength]
      rfl
    · have hpadding : i - bytes.length < width := by omega
      rw [List.getElem?_append_right (by omega), List.getElem?_replicate_of_lt hpadding,
        List.getElem?_eq_none (by omega)]
      rfl
  · rw [if_neg hi, if_neg hi]

theorem padded_eq_iff {width : Nat} {a b : Bytes} :
    a.padded width = b.padded width ↔ ∀ i < width, a[i]?.getD 0 = b[i]?.getD 0 := by
  constructor
  · intro h i hi
    have hbyte := congrArg (fun bytes : Bytes => bytes[i]?) h
    simpa [getElem?_padded, hi] using hbyte
  · intro h
    refine List.ext_getElem? fun i => ?_
    rw [getElem?_padded, getElem?_padded]
    by_cases hi : i < width
    · rw [h i hi]
    · rw [if_neg hi, if_neg hi]

-- A bit that is shifted to the front and masked is the bit of the byte's number.
theorem and_one_shiftRight_iff (b : UInt8) {j : Nat} (hj : j < 8) :
    (b >>> UInt8.ofNat j) &&& 1 = 1 ↔ b.toNat.testBit j = true := by
  have hshift : (UInt8.ofNat j).toNat % 8 = j := by
    rw [UInt8.toNat_ofNat']
    omega
  rw [← UInt8.toNat_inj, UInt8.toNat_and, UInt8.toNat_shiftRight, hshift]
  simp [Nat.testBit, Nat.and_comm]

theorem byte_eq_of_testBit_eq {a b : UInt8}
    (h : ∀ j < 8, a.toNat.testBit j = b.toNat.testBit j) : a = b := by
  have hhigh : ∀ (c : UInt8) (j : Nat), ¬ j < 8 → c.toNat.testBit j = false := fun c j hj =>
    Nat.testBit_lt_two_pow
      (Nat.lt_of_lt_of_le c.toNat_lt (Nat.pow_le_pow_right (by decide) (by omega)))
  refine UInt8.toNat_inj.mp (Nat.eq_of_testBit_eq fun j => ?_)
  by_cases hj : j < 8
  · exact h j hj
  · rw [hhigh a j hj, hhigh b j hj]

end Bytes

theorem messageBit_eq_testBit (message : Bytes) (i : Nat) :
    messageBit message i = (message[i / 8]?.getD 0).toNat.testBit (i % 8) := by
  unfold messageBit
  cases message[i / 8]? with
  | none => simp
  | some b =>
      have hbit := Bytes.and_one_shiftRight_iff b (Nat.mod_lt i (by decide))
      simp only [Option.getD_some, hbit, Bool.decide_eq_true]

-- Padded messages are the same if their bits are.
theorem padded_eq_iff_messageBit {width : Nat} {a b : Bytes} :
    a.padded width = b.padded width ↔ ∀ i < 8 * width, messageBit a i = messageBit b i := by
  rw [Bytes.padded_eq_iff]
  constructor
  · intro h i hi
    rw [messageBit_eq_testBit, messageBit_eq_testBit, h (i / 8) (by omega)]
  · intro h i hi
    refine Bytes.byte_eq_of_testBit_eq fun j hj => ?_
    have hbit := h (8 * i + j) (by omega)
    have hbyte : (8 * i + j) / 8 = i := by omega
    have hplace : (8 * i + j) % 8 = j := by omega
    rwa [messageBit_eq_testBit, messageBit_eq_testBit, hbyte, hplace] at hbit

theorem PublicKey.component_inj {k : PublicKey} {i : Nat} (hi : i < keyBits)
    (hdiffer : k.zeros[i] ≠ k.ones[i]) {a b : Bool} :
    k.component a ⟨i, hi⟩ = k.component b ⟨i, hi⟩ ↔ a = b := by
  have hvalues : k.component false ⟨i, hi⟩ ≠ k.component true ⟨i, hi⟩ := hdiffer
  cases a <;> cases b <;> simp [hvalues, hvalues.symm]

namespace PrivateKey

-- A signature verifies for a message if the message asks for the same components as the one that
-- was signed.
theorem verify_sign_eq_valid_iff (k : PrivateKey) (message other : Bytes) :
    k.publicKey.verify other (k.sign message) = .valid ↔ ∀ i (hi : i < keyBits),
      k.publicKey.component (messageBit message i) ⟨i, hi⟩ =
        k.publicKey.component (messageBit other i) ⟨i, hi⟩ := by
  rw [PublicKey.verify_eq_valid_iff]
  simp only [digest_sign]

theorem verify_sign_eq_valid_iff_padded {k : PrivateKey}
    (hdiffer : ∀ i (hi : i < keyBits), k.publicKey.zeros[i] ≠ k.publicKey.ones[i])
    (message other : Bytes) :
    k.publicKey.verify other (k.sign message) = .valid ↔
      message.padded (keyBits / 8) = other.padded (keyBits / 8) := by
  rw [verify_sign_eq_valid_iff, padded_eq_iff_messageBit]
  exact forall₂_congr fun i hi => PublicKey.component_inj hi (hdiffer i hi)

-- Both signatures hash to the components that the message asks for.
theorem exists_collision_of_verify {k : PrivateKey} {message : Bytes} {s : Signature}
    (hs : s ≠ k.sign message) (hvalid : k.publicKey.verify message s = .valid) :
    ∃ i, ∃ hi : i < keyBits, s.preimages[i] ≠ (k.sign message).preimages[i] ∧
      Digest.of s.preimages[i].toList = Digest.of (k.sign message).preimages[i].toList := by
  have hplace : ∃ i, ∃ hi : i < keyBits, s.preimages[i] ≠ (k.sign message).preimages[i] := by
    by_contra hnone
    simp only [not_exists, not_not] at hnone
    exact hs (congrArg Signature.mk (Vector.ext hnone))
  obtain ⟨i, hi, hne⟩ := hplace
  refine ⟨i, hi, hne, ?_⟩
  exact (PublicKey.verify_eq_valid_iff.mp hvalid i hi).trans (k.digest_sign message i hi).symm

end PrivateKey

namespace KeyPair

-- The secrets of a generated pair are the first that its source gives.
theorem generate_eq_ok_iff {σ : Type} {draw : σ → Except String (Bytes32 × σ)} {start : σ}
    {k : KeyPair} :
    generate draw start = .ok k ↔ ∃ zeros middle ones last,
      drawn draw keyBits start = .ok (zeros, middle) ∧
        drawn draw keyBits middle = .ok (ones, last) ∧ k = ofPrivateKey ⟨zeros, ones⟩ := by
  unfold generate
  cases hzeros : drawn draw keyBits start with
  | error reason => simp
  | ok first =>
      obtain ⟨zeros, middle⟩ := first
      cases hones : drawn draw keyBits middle with
      | error reason => simp [hones]
      | ok second =>
          obtain ⟨ones, last⟩ := second
          simp [hones, eq_comm]

-- What one message reveals at a place with two equal components fits every message there. Where the
-- components of every place differ, a signature fits the messages whose first bits are the same.
theorem verify_of_generate {σ : Type} {draw : σ → Except String (Bytes32 × σ)} {start : σ}
    {k : KeyPair} (h : generate draw start = .ok k) (message other : Bytes) (s : Signature) :
    k.publicKey.verify message (k.sign message) = .valid ∧
      (s ≠ k.sign message → k.publicKey.verify message s = .valid →
        ∃ i, ∃ hi : i < keyBits, s.preimages[i] ≠ (k.sign message).preimages[i] ∧
          Digest.of s.preimages[i].toList = Digest.of (k.sign message).preimages[i].toList) ∧
      ((∀ i (hi : i < keyBits), k.publicKey.zeros[i] ≠ k.publicKey.ones[i]) →
        (k.publicKey.verify other (k.sign message) = .valid ↔
          message.padded (keyBits / 8) = other.padded (keyBits / 8))) := by
  obtain ⟨zeros, -, ones, -, -, -, rfl⟩ := generate_eq_ok_iff.mp h
  exact ⟨PrivateKey.verify_sign _ message, PrivateKey.exists_collision_of_verify,
    fun hdiffer => PrivateKey.verify_sign_eq_valid_iff_padded hdiffer message other⟩

-- A source that counts its draws: one secret for all zero bits, another for all one bits.
def twoSecrets (n : Nat) : Except String (Bytes32 × Nat) :=
  .ok (Speech.uniform.secret (if n < keyBits then 1 else 2), n + 1)

def twofold : KeyPair :=
  .ofPrivateKey ⟨.replicate keyBits (Speech.uniform.secret 1),
    .replicate keyBits (Speech.uniform.secret 2)⟩

theorem drawn_twoSecrets {b : UInt8} {n start : Nat}
    (h : ∀ i < n, (if start + i < keyBits then 1 else 2) = b) :
    drawn twoSecrets n start = .ok (.replicate n (Speech.uniform.secret b), start + n) := by
  induction n with
  | zero => rfl
  | succ n ih =>
      rw [drawn, ih fun i hi => h i (Nat.lt_succ_of_lt hi), Vector.replicate_succ, ← h n (by omega)]
      rfl

theorem generate_twoSecrets : generate twoSecrets 0 = .ok twofold := by
  refine generate_eq_ok_iff.mpr ⟨_, keyBits, _, keyBits + keyBits, ?_, ?_, rfl⟩
  · have hfirst := drawn_twoSecrets fun i (hi : i < keyBits) => by
      rw [Nat.zero_add, if_pos hi]
    rwa [Nat.zero_add] at hfirst
  · exact drawn_twoSecrets fun i _ => by simp

-- A longer message pads out to the same bits as a shorter one, and another has other bits.
theorem verify_of_generate_twofold :
    generate twoSecrets 0 = .ok twofold ∧
      (∀ i (hi : i < keyBits), twofold.publicKey.zeros[i] ≠ twofold.publicKey.ones[i]) ∧
      twofold.publicKey.verify [5, 0] (twofold.sign [5]) = .valid ∧
      twofold.publicKey.verify [6] (twofold.sign [5]) ≠ .valid := by
  have hdiffer : ∀ i (hi : i < keyBits),
      twofold.publicKey.zeros[i] ≠ twofold.publicKey.ones[i] := by
    intro i hi
    simpa [twofold, ofPrivateKey, PrivateKey.publicKey] using
      Speech.digest_secret_ne 1 2 (by decide)
  have hexact := fun other => (verify_of_generate generate_twoSecrets [5] other
    (twofold.sign [5])).2.2 hdiffer
  refine ⟨generate_twoSecrets, hdiffer, (hexact [5, 0]).mpr (by decide), ?_⟩
  rw [ne_eq, hexact]
  decide

end KeyPair

end QuorumLedger
