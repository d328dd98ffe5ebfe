import QuorumLedger.Consensus.Message

namespace QuorumLedger.Sample

def coins : UInt64 := 100

def wallets (count : Nat) : List WalletId :=
  (List.range count).map fun i => ⟨UInt32.ofNat i⟩

-- As many wallets as asked for, each with one output.
def ledger (count : Nat) : LedgerView :=
  ⟨UnspentSet.genesis (wallets count) coins, wallets count⟩

-- A payment out of the payer's first output, with the rest going back.
def transfer (tx : TxId) (payer payee : WalletId) (amount : UInt64) :
    Except Overflow Transaction := do
  let rest ← Checked.sub coins.toNat amount.toNat
  pure (Transaction.unsigned tx payer [⟨⟨payer.value⟩, 0⟩]
    [⟨amount, payee⟩, ⟨UInt64.ofNat rest, payer⟩])

def twoTransfers : List Transaction :=
  [Transaction.unsigned ⟨1000⟩ ⟨0⟩ [⟨⟨0⟩, 0⟩] [⟨30, ⟨1⟩⟩, ⟨70, ⟨0⟩⟩],
    Transaction.unsigned ⟨1001⟩ ⟨1⟩ [⟨⟨1⟩, 0⟩] [⟨45, ⟨0⟩⟩, ⟨55, ⟨1⟩⟩]]

-- Two payments between the first two wallets.
def block : Block :=
  (twoTransfers.foldl Draft.add (Draft.start ⟨1⟩ Bytes32.zero)).finalize

-- A validator whose first key belongs to a seed of its own.
structure Peer where
  id : ValidatorId
  signer : Signer

def Peer.seed (id : ValidatorId) : Except Overflow UInt64 :=
  (Checked.add 1000 id.value.toNat).map UInt64.ofNat

def Peer.firstKey (id : ValidatorId) : Except Overflow KeyPair :=
  (Peer.seed id).map KeyPair.ofSeed

def Peer.create (id : ValidatorId) (source : KeySource) : Except Overflow Peer :=
  (Peer.firstKey id).map fun key => ⟨id, Signer.ofKeyPair key source⟩

def Peer.say (p : Peer) (kind : MessageKind) (b : Block) : Except SignatureError Message × Peer :=
  let round :=
    match kind with
    | .send => Round.send
    | .echo => Round.echo
    | .ready => Round.readyFromEcho
  match b.signWith p.signer p.id with
  | (.ok b, signer) => (.ok ⟨kind, b, p.id, round⟩, { p with signer })
  | (.error e, signer) => (.error e, { p with signer })

-- Says something that nobody hears.
def Peer.skip (p : Peer) (b : Block) : Peer :=
  (p.say .echo b).2

end QuorumLedger.Sample
