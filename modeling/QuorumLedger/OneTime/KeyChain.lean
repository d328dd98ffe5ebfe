import QuorumLedger.OneTime.Key
import QuorumLedger.Table

namespace QuorumLedger

-- The outcome of each attempt to generate a key pair, by the number of the attempt.
abbrev KeySource := Nat → Except SignatureError KeyPair

-- Key pairs derived from 32 secret bytes.
def KeySource.ofSecret (secret : Bytes32) : KeySource :=
  fun n => .ok (KeyPair.ofStream (ChaCha.ofKey (Digest.of (secret.toList ++ Bytes.littleEndian 8 n))))

-- Each signature discloses the key of the next one, so the next pair is held before this one is used.
structure Signer where
  next : KeyPair
  source : KeySource
  attempts : Nat

namespace Signer

def ofKeyPair (next : KeyPair) (source : KeySource) : Signer :=
  ⟨next, source, 0⟩

def create (source : KeySource) : Except SignatureError Signer :=
  match source 0 with
  | .ok pair => .ok ⟨pair, source, 1⟩
  | .error e => .error e

-- The key to sign with now and the public key of its successor. A failed attempt keeps the key.
def rotate (s : Signer) : Except SignatureError (PrivateKey × PublicKey) × Signer :=
  match s.source s.attempts with
  | .ok fresh => (.ok (s.next.privateKey, fresh.publicKey), ⟨fresh, s.source, s.attempts + 1⟩)
  | .error e => (.error e, { s with attempts := s.attempts + 1 })

end Signer

inductive ChainCheck where
  -- nothing is recorded for the signer yet
  | firstContact
  -- the signature was checked against the key that the signer disclosed last
  | checked (key : PublicKey) (verification : Verification)
  -- the signer's last message disclosed no key
  | exhausted
  deriving DecidableEq

namespace ChainCheck

def isAccepted : ChainCheck → Bool
  | firstContact => true
  | checked _ verification => verification.isValid
  | exhausted => false

def verifyingKey : ChainCheck → Option PublicKey
  | checked key _ => some key
  | _ => none

end ChainCheck

-- For each known signer the key that it disclosed last, if it disclosed one.
structure KeyChain (ι : Type) where
  recorded : Table ι (Option PublicKey)
  deriving DecidableEq

namespace KeyChain

variable {ι : Type} [DecidableEq ι]

def empty : KeyChain ι :=
  ⟨∅⟩

instance : EmptyCollection (KeyChain ι) :=
  ⟨empty⟩

def knows (c : KeyChain ι) (signer : ι) : Bool :=
  c.recorded.contains signer

def expectedKey (c : KeyChain ι) (signer : ι) : Option PublicKey :=
  (c.recorded.get? signer).join

def check (c : KeyChain ι) (signer : ι) (message : Bytes) (signature : Signature) : ChainCheck :=
  match c.recorded.get? signer with
  | none => .firstContact
  | some none => .exhausted
  | some (some key) => .checked key (key.verify message signature)

def advance (c : KeyChain ι) (signer : ι) (nextKey : Option PublicKey) : KeyChain ι :=
  ⟨c.recorded.set signer nextKey⟩

-- The disclosed key is recorded whatever the check says, so that one bad or lost message does not
-- lock a signer out.
def checkAndAdvance (c : KeyChain ι) (signer : ι) (message : Bytes) (signature : Signature)
    (nextKey : Option PublicKey) : ChainCheck × KeyChain ι :=
  (c.check signer message signature, c.advance signer nextKey)

end KeyChain

end QuorumLedger
