import QuorumLedger.Wire.Reader
import QuorumLedger.Consensus.Message

namespace QuorumLedger.Wire

def putKey (k : PublicKey) : Bytes :=
  putList Bytes32.toList k.zeros.toList ++ putList Bytes32.toList k.ones.toList

def putSignature (s : Signature) : Bytes :=
  putList Bytes32.toList s.preimages.toList

def putInput (r : OutputRef) : Bytes :=
  putNumber r.tx.value.toNat ++ putNumber r.index.toNat

def putOutput (o : Output) : Bytes :=
  putNumber o.value.toNat ++ putNumber o.receiver.value.toNat

def putTransaction (t : Transaction) : Bytes :=
  putNumber t.id.value.toNat ++ (putNumber t.sender.value.toNat ++
    (putList putInput t.inputs ++ (putList putOutput t.outputs ++
      (putOptional putKey t.nextKey ++ putOptional putSignature t.signature))))

def putSeal (s : Seal) : Bytes :=
  putNumber s.signer.value.toNat ++ (putSignature s.signature ++ putOptional putKey s.nextKey)

def putHeader (h : Header) : Bytes :=
  h.parent.toList ++ putOptional Bytes32.toList h.root

-- The votes that were collected for a block stay behind.
def putBlock (b : Block) : Bytes :=
  putHeader b.header ++ (putNumber b.height.value.toNat ++
    (putList putTransaction b.transactions ++ putOptional putSeal b.sealedBy))

def kindNumber : MessageKind → Nat
  | .send => 0
  | .echo => 1
  | .ready => 2

def putMessage (m : Message) : Bytes :=
  putNumber (kindNumber m.kind) ++ (putBlock m.block ++
    (putNumber m.sender.value.toNat ++ putNumber m.round.toNat))

namespace Reader

-- The lengths are looked at when both lists have been read.
def key : Reader PublicKey := do
  let zeros ← list bytes32
  let ones ← list bytes32
  require (PublicKey.ofComponents zeros ones)

def signature : Reader Signature := do
  let preimages ← list bytes32
  require (Signature.ofPreimages preimages)

def word32 : Reader UInt32 := do
  let n ← number 4
  pure (UInt32.ofNat n)

def word64 : Reader UInt64 := do
  let n ← number 8
  pure (UInt64.ofNat n)

def input : Reader OutputRef := do
  let tx ← word32
  let index ← word32
  pure ⟨⟨tx⟩, index⟩

def output : Reader Output := do
  let value ← word64
  let receiver ← word32
  pure ⟨value, ⟨receiver⟩⟩

def transaction : Reader Transaction := do
  let id ← word32
  let sender ← word32
  let inputs ← list input
  let outputs ← list output
  let nextKey ← optional key
  let signature ← optional signature
  pure ⟨⟨id⟩, ⟨sender⟩, inputs, outputs, nextKey, signature⟩

def sealOf : Reader Seal := do
  let signer ← word64
  let signature ← signature
  let nextKey ← optional key
  pure ⟨⟨signer⟩, signature, nextKey⟩

def header : Reader Header := do
  let parent ← bytes32
  let root ← optional bytes32
  pure ⟨parent, root⟩

def block : Reader Block := do
  let header ← header
  let height ← word64
  let transactions ← list transaction
  let sealedBy ← optional sealOf
  pure ⟨header, ⟨height⟩, transactions, sealedBy, []⟩

def kind : Reader MessageKind := do
  let n ← number 4
  match n with
  | 0 => pure .send
  | 1 => pure .echo
  | 2 => pure .ready
  | _ => fail .malformed

def message : Reader Message := do
  let kind ← kind
  let block ← block
  let sender ← word64
  let round ← number 2
  pure ⟨kind, block, ⟨sender⟩, UInt16.ofNat round⟩

end Reader

end QuorumLedger.Wire
