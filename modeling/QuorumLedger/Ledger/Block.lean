import QuorumLedger.Ledger.Transaction
import QuorumLedger.Ledger.Merkle

namespace QuorumLedger

structure Header where
  parent : Digest
  root : Option Digest
  deriving DecidableEq

namespace Header

def idBytes (h : Header) : Bytes :=
  match h.root with
  | some root => h.parent.toList ++ root.toList
  | none => h.parent.toList

-- The value that validators vote on.
def id (h : Header) : Digest :=
  Digest.of h.idBytes

def rootOf (transactions : List Transaction) : Option Digest :=
  Merkle.root (transactions.map Transaction.digest)

end Header

structure Seal where
  signer : ValidatorId
  signature : Signature
  nextKey : Option PublicKey
  deriving DecidableEq

-- A signature received with a vote for a block, and the key that it was checked against.
structure CollectedVote where
  signer : ValidatorId
  signature : Signature
  verifiedBy : Option PublicKey
  round : UInt16
  deriving DecidableEq

structure Block where
  header : Header
  height : Height
  transactions : List Transaction
  sealedBy : Option Seal
  votes : List CollectedVote
  deriving DecidableEq

-- The inputs of a list of transactions, in order.
def inputsOf (transactions : List Transaction) : List OutputRef :=
  transactions.flatMap (·.inputs)

-- Whether a transaction spends nothing that the others spend.
def disjointFrom (transactions : List Transaction) (t : Transaction) : Bool :=
  (inputsOf transactions).all fun spent => !decide (spent ∈ t.inputs)

-- The first element that repeats an earlier one.
def firstRepeat {α : Type} [DecidableEq α] : (seen : List α) → List α → Option α
  | _, [] => none
  | seen, x :: rest => if x ∈ seen then some x else firstRepeat (x :: seen) rest

-- A block that still takes transactions.
structure Draft where
  height : Height
  parent : Digest
  transactions : List Transaction

namespace Draft

def start (height : Height) (parent : Digest) : Draft :=
  ⟨height, parent, []⟩

def add (d : Draft) (t : Transaction) : Draft :=
  { d with transactions := d.transactions ++ [t] }

-- The first input that the draft spends already.
def conflict (d : Draft) (t : Transaction) : Option OutputRef :=
  t.inputs.find? fun input => decide (input ∈ inputsOf d.transactions)

def tryAdd (d : Draft) (t : Transaction) : Except LedgerError Draft :=
  match d.conflict t with
  | some input => .error (.duplicateInput input)
  | none => .ok (d.add t)

def admits (d : Draft) (t : Transaction) : Bool :=
  disjointFrom d.transactions t

def finalize (d : Draft) : Block :=
  ⟨⟨d.parent, Header.rootOf d.transactions⟩, d.height, d.transactions, none, []⟩

end Draft

namespace Block

def id (b : Block) : Digest :=
  b.header.id

-- What a validator signs: the block's id, its own number and the key of its next signature.
def signingBytes (id : Digest) (signer : ValidatorId) (nextKey : Option PublicKey) : Bytes :=
  id.toList ++ (Bytes.littleEndian 8 signer.value.toNat ++ Transaction.keyBytes nextKey)

def signingDigest (id : Digest) (signer : ValidatorId) (nextKey : Option PublicKey) : Digest :=
  Digest.of (signingBytes id signer nextKey)

-- The digest that the seal covers.
def sealDigest (id : Digest) (s : Seal) : Digest :=
  signingDigest id s.signer s.nextKey

def digest (b : Block) : Option Digest :=
  b.sealedBy.map (sealDigest b.id)

-- Replaces the seal.
def signBy (b : Block) (key : PrivateKey) (signer : ValidatorId) (nextKey : Option PublicKey) :
    Block :=
  let signature := key.sign (signingDigest b.id signer nextKey).toList
  { b with sealedBy := some ⟨signer, signature, nextKey⟩ }

def signWith (b : Block) (signer : Signer) (id : ValidatorId) :
    Except SignatureError Block × Signer :=
  match signer.rotate with
  | (.ok (key, nextKey), signer) => (.ok (b.signBy key id (some nextKey)), signer)
  | (.error e, signer) => (.error e, signer)

def verifySeal (b : Block) (key : PublicKey) : Bool :=
  match b.sealedBy with
  | some s => (key.verify (sealDigest b.id s).toList s.signature).isValid
  | none => false

-- Checks the seal, if there is one, against what its signer disclosed before.
def checkSeal (b : Block) (chain : KeyChain ValidatorId) :
    Option (Seal × ChainCheck) × KeyChain ValidatorId :=
  match b.sealedBy with
  | none => (none, chain)
  | some s =>
    let digest := sealDigest b.id s
    let (check, chain) := chain.checkAndAdvance s.signer digest.toList s.signature s.nextKey
    (some (s, check), chain)

def admits (b : Block) (t : Transaction) : Bool :=
  disjointFrom b.transactions t

def spent (b : Block) : List OutputRef :=
  inputsOf b.transactions

-- The first transaction that may not be spent.
def checkTransactions (view : LedgerView) : List Transaction → Except LedgerError Unit
  | [] => .ok ()
  | t :: rest =>
    match t.check view with
    | .error e => .error e
    | .ok () => checkTransactions view rest

-- The root has to match the transactions, each of them has to pass, and no input may occur twice.
def check (b : Block) (view : LedgerView) : Except LedgerError Unit :=
  let computed := Header.rootOf b.transactions
  if computed ≠ b.header.root then
    .error (.merkleMismatch b.header.root computed)
  else
    match checkTransactions view b.transactions with
    | .error e => .error e
    | .ok () =>
      match firstRepeat [] b.spent with
      | some input => .error (.duplicateInput input)
      | none => .ok ()

def isValid (b : Block) (view : LedgerView) : Bool :=
  (b.check view).isOk

def collect (b : Block) (v : CollectedVote) : Block :=
  { b with votes := b.votes ++ [v] }

def withoutVotes (b : Block) : Block :=
  { b with votes := [] }

end Block

end QuorumLedger
