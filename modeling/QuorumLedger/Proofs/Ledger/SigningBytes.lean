import QuorumLedger.Ledger.Block

namespace QuorumLedger

namespace PublicKey

theorem length_components (k : PublicKey) : k.components.length = 2 * keyBits := by
  simp only [components, List.length_append, Vector.length_toList]
  omega

theorem components_injective : Function.Injective components := by
  rintro ⟨zeros, ones⟩ ⟨zeros', ones'⟩ h
  obtain ⟨hzeros, hones⟩ := List.append_inj h (by simp)
  have hzeros : zeros = zeros' := Vector.toList_inj.mp hzeros
  have hones : ones = ones' := Vector.toList_inj.mp hones
  rw [hzeros, hones]

theorem length_toBytes (k : PublicKey) : k.toBytes.length = 32 * (2 * keyBits) := by
  rw [toBytes, Bytes.length_flatMap Bytes32.length_toList, length_components]

-- Every key has as many digests, so they are found again in the bytes.
theorem toBytes_injective : Function.Injective toBytes := by
  intro k k' h
  have hlength : k.components.length = k'.components.length := by
    rw [length_components, length_components]
  exact components_injective
    (Bytes.flatMap_inj Bytes32.length_toList (fun _ _ => Bytes32.toList_inj) hlength h)

end PublicKey

namespace Transaction

theorem keyBytes_injective : Function.Injective keyBytes := by
  have hne : ∀ k : PublicKey, k.toBytes ≠ [] := by
    intro k hnil
    have hlength := k.length_toBytes
    rw [hnil] at hlength
    cases hlength
  intro key key' h
  cases key with
  | none =>
      cases key' with
      | none => rfl
      | some k' => exact absurd h.symm (hne k')
  | some k =>
      cases key' with
      | none => exact absurd h (hne k)
      | some k' => rw [PublicKey.toBytes_injective h]

-- Whether or not a key is there, the bytes are whole digests.
theorem dvd_length_keyBytes (key : Option PublicKey) : 32 ∣ (keyBytes key).length := by
  cases key with
  | none => exact Nat.dvd_zero 32
  | some k => exact ⟨2 * keyBits, k.length_toBytes⟩

theorem length_signingBytes (digest : Digest) (key : Option PublicKey) :
    (signingBytes digest key).length = 42 + (keyBytes key).length := by
  have htag : (Bytes.ofText "ledger_tx:").length = 10 := by decide
  simp only [signingBytes, List.length_append, htag, Bytes32.length_toList]
  omega

theorem signingBytes_inj {digest digest' : Digest} {key key' : Option PublicKey}
    (h : signingBytes digest key = signingBytes digest' key') : digest = digest' ∧ key = key' := by
  have h := List.append_cancel_left h
  obtain ⟨hdigest, hkey⟩ := List.append_inj h (by simp)
  exact ⟨Bytes32.toList_inj hdigest, keyBytes_injective hkey⟩

end Transaction

namespace Block

open Transaction (keyBytes dvd_length_keyBytes)

theorem length_signingBytes (id : Digest) (signer : ValidatorId) (key : Option PublicKey) :
    (signingBytes id signer key).length = 40 + (keyBytes key).length := by
  simp only [signingBytes, List.length_append, Bytes32.length_toList, Bytes.length_littleEndian]
  omega

theorem signingBytes_inj {id id' : Digest} {signer signer' : ValidatorId}
    {key key' : Option PublicKey} (h : signingBytes id signer key = signingBytes id' signer' key') :
    id = id' ∧ signer = signer' ∧ key = key' := by
  obtain ⟨hid, h⟩ := List.append_inj h (by simp)
  obtain ⟨hsigner, hkey⟩ := List.append_inj h (by simp)
  have hsigner : signer.value = signer'.value := Bytes.littleEndian_inj64 hsigner
  exact ⟨Bytes32.toList_inj hid, congrArg ValidatorId.mk hsigner,
    Transaction.keyBytes_injective hkey⟩

-- Up to the key they have 40 and 42 bytes, and 32 divides the rest.
theorem signingBytes_ne_signingBytes (id : Digest) (signer : ValidatorId) (digest : Digest)
    (key key' : Option PublicKey) :
    signingBytes id signer key ≠ Transaction.signingBytes digest key' := by
  intro h
  have hlength := congrArg List.length h
  rw [length_signingBytes, Transaction.length_signingBytes] at hlength
  obtain ⟨n, hn⟩ := dvd_length_keyBytes key
  obtain ⟨n', hn'⟩ := dvd_length_keyBytes key'
  omega

end Block

-- A signature is for one block by one validator or for one transaction, and for one next key.
theorem signingBytes_apart :
    (∀ (id id' : Digest) (signer signer' : ValidatorId) (key key' : Option PublicKey),
      Block.signingBytes id signer key = Block.signingBytes id' signer' key' ↔
        id = id' ∧ signer = signer' ∧ key = key') ∧
    (∀ (digest digest' : Digest) (key key' : Option PublicKey),
      Transaction.signingBytes digest key = Transaction.signingBytes digest' key' ↔
        digest = digest' ∧ key = key') ∧
    ∀ (id : Digest) (signer : ValidatorId) (digest : Digest) (key key' : Option PublicKey),
      Block.signingBytes id signer key ≠ Transaction.signingBytes digest key' := by
  refine ⟨fun id id' signer signer' key key' => ⟨Block.signingBytes_inj, ?_⟩,
    fun digest digest' key key' => ⟨Transaction.signingBytes_inj, ?_⟩,
    Block.signingBytes_ne_signingBytes⟩
  · rintro ⟨rfl, rfl, rfl⟩
    rfl
  · rintro ⟨rfl, rfl⟩
    rfl

end QuorumLedger
