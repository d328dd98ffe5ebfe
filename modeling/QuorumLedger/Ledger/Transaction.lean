import QuorumLedger.Ledger.Unspent
import QuorumLedger.OneTime.KeyChain

namespace QuorumLedger

inductive LedgerError where
  | coinbaseWithOutputs (tx : TxId)
  | unknownInput (tx : TxId) (input : OutputRef)
  | valueMismatch (tx : TxId) (inputs outputs : UInt64)
  | valueOverflow (tx : TxId)
  | unknownReceiver (tx : TxId) (receiver : WalletId)
  | duplicateInput (input : OutputRef)
  | merkleMismatch (header computed : Option Digest)
  deriving DecidableEq

namespace LedgerError

def rootText : Option Digest → String
  | none => "None"
  | some d => "Some(" ++ d.diagnostic ++ ")"

def message : LedgerError → String
  | coinbaseWithOutputs tx => s!"Coinbase transaction {tx.text} must not have outputs"
  | unknownInput tx input => s!"Input {input.diagnostic} of {tx.text} is not in the unspent set"
  | valueMismatch tx inputs outputs =>
    s!"{tx.text} spends {inputs.toNat} but pays out {outputs.toNat}"
  | valueOverflow tx => s!"Value overflow in {tx.text}"
  | unknownReceiver tx receiver => s!"Output of {tx.text} pays unknown receiver {receiver.text}"
  | duplicateInput input => s!"Input {input.diagnostic} is spent twice in the same block"
  | merkleMismatch header computed =>
    s!"Merkle root mismatch: header has {rootText header}, transactions give {rootText computed}"

end LedgerError

-- The key and the signature are absent until the sender signs.
structure Transaction where
  id : TxId
  sender : WalletId
  inputs : List OutputRef
  outputs : List Output
  nextKey : Option PublicKey
  signature : Option Signature
  deriving DecidableEq

-- A sum of two values, if it fits 64 bits.
def addValues? (a b : UInt64) : Option UInt64 :=
  if a.toNat + b.toNat < UInt64.size then some (a + b) else none

-- The sum of values added to a first one, if it and all sums on the way fit.
def sumFrom? (total : UInt64) : List UInt64 → Option UInt64
  | [] => some total
  | v :: rest => (addValues? total v).bind fun total => sumFrom? total rest

namespace Transaction

def unsigned (id : TxId) (sender : WalletId) (inputs : List OutputRef) (outputs : List Output) :
    Transaction :=
  ⟨id, sender, inputs, outputs, none, none⟩

def inputBytes (r : OutputRef) : Bytes :=
  Bytes.littleEndian 4 r.tx.value.toNat ++ Bytes.littleEndian 4 r.index.toNat

def outputBytes (o : Output) : Bytes :=
  Bytes.littleEndian 8 o.value.toNat ++ Bytes.littleEndian 4 o.receiver.value.toNat

-- What the digest covers: the number of the transaction, the inputs and the outputs, each list
-- after its length.
def digestBytes (t : Transaction) : Bytes :=
  Bytes.littleEndian 4 t.id.value.toNat ++
    (Bytes.littleEndian 4 t.inputs.length ++ (t.inputs.flatMap inputBytes ++
      (Bytes.littleEndian 4 t.outputs.length ++ t.outputs.flatMap outputBytes)))

def digest (t : Transaction) : Digest :=
  Digest.of t.digestBytes

-- The bytes of a key that is disclosed along with what is signed.
def keyBytes : Option PublicKey → Bytes
  | none => []
  | some key => key.toBytes

-- What a wallet signs: a tag, the digest of the transaction and the key of the next signature.
def signingBytes (digest : Digest) (nextKey : Option PublicKey) : Bytes :=
  Bytes.ofText "ledger_tx:" ++ (digest.toList ++ keyBytes nextKey)

def signingDigest (t : Transaction) : Digest :=
  Digest.of (signingBytes t.digest t.nextKey)

def signBy (t : Transaction) (key : PrivateKey) (nextKey : PublicKey) : Transaction :=
  let t := { t with nextKey := some nextKey }
  { t with signature := some (key.sign t.signingDigest.toList) }

def signWith (t : Transaction) (signer : Signer) : Except SignatureError Transaction × Signer :=
  match signer.rotate with
  | (.ok (key, nextKey), signer) => (.ok (t.signBy key nextKey), signer)
  | (.error e, signer) => (.error e, signer)

-- Checks the signature, if there is one, against what the sender disclosed before.
def checkSignature (t : Transaction) (chain : KeyChain WalletId) :
    Option ChainCheck × KeyChain WalletId :=
  match t.signature with
  | none => (none, chain)
  | some signature =>
    let (check, chain) := chain.checkAndAdvance t.sender t.signingDigest.toList signature t.nextKey
    (some check, chain)

def isCoinbase (t : Transaction) : Bool :=
  t.inputs.isEmpty

-- The sum of the inputs, taken one after the other: an input that is not live is found before a
-- later sum that does not fit.
def inputTotal (t : Transaction) (unspent : UnspentSet) :
    UInt64 → List OutputRef → Except LedgerError UInt64
  | total, [] => .ok total
  | total, input :: rest =>
    match unspent.get? input with
    | none => .error (.unknownInput t.id input)
    | some output =>
      match addValues? total output.value with
      | none => .error (.valueOverflow t.id)
      | some total => inputTotal t unspent total rest

def check (t : Transaction) (view : LedgerView) : Except LedgerError Unit :=
  if t.isCoinbase then
    if t.outputs.isEmpty then .ok () else .error (.coinbaseWithOutputs t.id)
  else
    match t.inputTotal view.unspent 0 t.inputs with
    | .error e => .error e
    | .ok paidIn =>
      match sumFrom? 0 (t.outputs.map (·.value)) with
      | none => .error (.valueOverflow t.id)
      | some paidOut =>
        if paidIn ≠ paidOut then
          .error (.valueMismatch t.id paidIn paidOut)
        else
          match t.outputs.find? fun o => !decide (o.receiver ∈ view.receivers) with
          | some o => .error (.unknownReceiver t.id o.receiver)
          | none => .ok ()

def maySpend (t : Transaction) (view : LedgerView) : Bool :=
  (t.check view).isOk

end Transaction

end QuorumLedger
