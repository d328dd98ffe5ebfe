import QuorumLedger.OneTime.KeyChain

namespace QuorumLedger

theorem Verification.isValid_iff {v : Verification} : v.isValid = true ↔ v = .valid :=
  decide_eq_true_iff

theorem PublicKey.verify_eq_valid_iff {k : PublicKey} {message : Bytes} {s : Signature} :
    k.verify message s = .valid ↔ ∀ i (hi : i < keyBits),
      Digest.of s.preimages[i].toList = k.component (messageBit message i) ⟨i, hi⟩ := by
  unfold PublicKey.verify
  split
  · next hall => exact iff_of_true rfl (by simpa [Fin.forall_iff] using hall)
  · next hall => exact iff_of_false (by decide) (by simpa [Fin.exists_iff] using hall)

-- What a signature reveals hashes to the components that the message asks for.
theorem PrivateKey.digest_sign (k : PrivateKey) (message : Bytes) (i : Nat) (hi : i < keyBits) :
    Digest.of (k.sign message).preimages[i].toList =
      k.publicKey.component (messageBit message i) ⟨i, hi⟩ := by
  cases hbit : messageBit message i <;> simp [sign, publicKey, PublicKey.component, hbit]

theorem PrivateKey.verify_sign (k : PrivateKey) (message : Bytes) :
    k.publicKey.verify message (k.sign message) = .valid :=
  PublicKey.verify_eq_valid_iff.mpr (k.digest_sign message)

namespace Signer

-- Whether every attempt to generate a key pair succeeds.
def Supplied (s : Signer) : Prop :=
  ∀ n, ∃ pair, s.source n = .ok pair

theorem Supplied.rotate {s : Signer} (h : s.Supplied) :
    ∃ s' : Signer, s'.Supplied ∧
      s.rotate = (.ok (s.next.privateKey, s'.next.publicKey), s') := by
  obtain ⟨pair, hpair⟩ := h s.attempts
  refine ⟨⟨pair, s.source, s.attempts + 1⟩, h, ?_⟩
  unfold Signer.rotate
  rw [hpair]

-- Signs with one pair of keys over and over.
def steady (pair : KeyPair) : Signer :=
  ofKeyPair pair fun _ => .ok pair

theorem steady_supplied (pair : KeyPair) : (steady pair).Supplied :=
  fun _ => ⟨pair, rfl⟩

end Signer

namespace KeyPair

-- All secrets are zero.
def blank : KeyPair :=
  ofPrivateKey ⟨.replicate keyBits .zero, .replicate keyBits .zero⟩

end KeyPair

end QuorumLedger
