import QuorumLedger.Digest
import QuorumLedger.Random.ChaCha

namespace QuorumLedger

-- The number of message bits that a signature covers.
abbrev keyBits : Nat := 256

inductive SignatureError where
  | entropy (reason : String)
  | keyLength (actual : Nat)
  | signatureLength (actual : Nat)
  deriving DecidableEq

namespace SignatureError

def message : SignatureError → String
  | entropy reason => "Entropy source unavailable: " ++ reason
  | keyLength actual => s!"Key has {actual} components, expected {keyBits}"
  | signatureLength actual => s!"Signature has {actual} preimages, expected {keyBits}"

end SignatureError

-- One entry for each message bit, in bit order.
abbrev PerBit (α : Type) := Vector α keyBits

structure PublicKey where
  zeros : PerBit Digest
  ones : PerBit Digest
  deriving DecidableEq

-- Two secrets for each bit of a message, one for each value of the bit.
structure PrivateKey where
  zeros : PerBit Bytes32
  ones : PerBit Bytes32

-- The secrets that belong to the values of the bits.
structure Signature where
  preimages : PerBit Bytes32
  deriving DecidableEq

-- A list is a vector when it has one entry for each bit.
def PerBit.ofList? {α : Type} (xs : List α) : Option (PerBit α) :=
  if h : xs.length = keyBits then some ⟨xs.toArray, by simpa using h⟩ else none

-- Bit `i` of a message, least significant bit of each byte first; bits past its end are zero.
def messageBit (message : Bytes) (i : Nat) : Bool :=
  match message[i / 8]? with
  | some b => (b >>> UInt8.ofNat (i % 8)) &&& 1 = 1
  | none => false

namespace PublicKey

-- The zeros are counted before the ones.
def ofComponents (zeros ones : List Digest) : Except SignatureError PublicKey :=
  match PerBit.ofList? zeros, PerBit.ofList? ones with
  | some zeros, some ones => .ok ⟨zeros, ones⟩
  | none, _ => .error (.keyLength zeros.length)
  | _, none => .error (.keyLength ones.length)

def components (k : PublicKey) : List Digest :=
  k.zeros.toList ++ k.ones.toList

def toBytes (k : PublicKey) : Bytes :=
  k.components.flatMap Bytes32.toList

-- The component that a bit's secret has to hash to.
def component (k : PublicKey) (bit : Bool) (i : Fin keyBits) : Digest :=
  if bit then k.ones[i] else k.zeros[i]

-- One digest that commits to the whole key.
def fingerprint (k : PublicKey) : Digest :=
  Digest.of k.toBytes

def diagnostic (k : PublicKey) : String :=
  "OneTimePublicKey(" ++ k.fingerprint.short ++ ")"

end PublicKey

namespace Signature

def ofPreimages (preimages : List Bytes32) : Except SignatureError Signature :=
  match PerBit.ofList? preimages with
  | some preimages => .ok ⟨preimages⟩
  | none => .error (.signatureLength preimages.length)

def toBytes (s : Signature) : Bytes :=
  s.preimages.toList.flatMap Bytes32.toList

def diagnostic (s : Signature) : String :=
  "OneTimeSignature(" ++ Bytes.hex (s.preimages[0].toList.take 4) ++ "..)"

end Signature

namespace PrivateKey

def publicKey (k : PrivateKey) : PublicKey :=
  ⟨k.zeros.map fun p => Digest.of p.toList, k.ones.map fun p => Digest.of p.toList⟩

def sign (k : PrivateKey) (message : Bytes) : Signature :=
  ⟨Vector.ofFn fun i => if messageBit message i then k.ones[i] else k.zeros[i]⟩

def diagnostic (_ : PrivateKey) : String :=
  "OneTimePrivateKey(..)"

end PrivateKey

inductive Verification where
  | valid
  | invalid
  deriving DecidableEq

namespace Verification

def isValid (v : Verification) : Bool :=
  v = valid

def text : Verification → String
  | valid => "Valid"
  | invalid => "Invalid"

end Verification

-- Every revealed secret has to hash to the component of its bit.
def PublicKey.verify (k : PublicKey) (message : Bytes) (s : Signature) : Verification :=
  if (List.finRange keyBits).all fun i =>
      Digest.of s.preimages[i].toList = k.component (messageBit message i) i then
    .valid
  else
    .invalid

-- A private key with the public key that belongs to it.
structure KeyPair where
  privateKey : PrivateKey
  publicKey : PublicKey
  publicKey_eq : publicKey = privateKey.publicKey

namespace KeyPair

def ofPrivateKey (k : PrivateKey) : KeyPair :=
  ⟨k, k.publicKey, rfl⟩

def sign (k : KeyPair) (message : Bytes) : Signature :=
  k.privateKey.sign message

-- The first `n` values of a source that may fail.
def drawn {σ : Type} (draw : σ → Except String (Bytes32 × σ)) :
    (n : Nat) → σ → Except String (Vector Bytes32 n × σ)
  | 0, s => .ok (#v[], s)
  | n + 1, s => do
    let (xs, s) ← drawn draw n s
    let (x, s) ← draw s
    pure (xs.push x, s)

-- The secrets for zero bits are drawn before those for one bits.
def generate {σ : Type} (draw : σ → Except String (Bytes32 × σ)) (s : σ) :
    Except SignatureError KeyPair :=
  match drawn draw keyBits s with
  | .error reason => .error (.entropy reason)
  | .ok (zeros, s) =>
    match drawn draw keyBits s with
    | .error reason => .error (.entropy reason)
    | .ok (ones, _) => .ok (ofPrivateKey ⟨zeros, ones⟩)

-- As `drawn`, for a source that never fails.
def taken (n : Nat) (g : ChaCha) : Vector Bytes32 n × ChaCha :=
  match n with
  | 0 => (#v[], g)
  | n + 1 =>
    let (xs, g) := taken n g
    let (x, g) := g.draw32
    (xs.push x, g)

def ofStream (g : ChaCha) : KeyPair :=
  let (zeros, g) := taken keyBits g
  let (ones, _) := taken keyBits g
  ofPrivateKey ⟨zeros, ones⟩

def ofSeed (seed : UInt64) : KeyPair :=
  ofStream (ChaCha.ofSeed seed)

def diagnostic (k : KeyPair) : String :=
  "OneTimeKeyPair \x7b public_key: " ++ k.publicKey.diagnostic ++ ", .. \x7d"

end KeyPair

end QuorumLedger
