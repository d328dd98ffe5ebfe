import QuorumLedger.Ledger.Block

namespace QuorumLedger

structure PoolLimits where
  maxBlockTransactions : UInt64 := 256
  maxPending : UInt64 := 4096
  deriving DecidableEq

inductive PoolError where
  | unsigned (tx : TxId)
  | badSignature (tx : TxId) (wallet : WalletId)
  | notOwner (tx : TxId) (sender : WalletId) (input : OutputRef)
  | duplicateTxId (tx : TxId)
  | full (pending : Nat)
  | ledger (cause : LedgerError)
  deriving DecidableEq

namespace PoolError

def message : PoolError → String
  | unsigned tx => s!"{tx.text} carries no sender signature"
  | badSignature tx wallet => s!"Signature of {tx.text} does not match the key chain of {wallet.text}"
  | notOwner tx sender input =>
    s!"{tx.text} spends {input.diagnostic}, which {sender.text} does not own"
  | duplicateTxId tx => s!"{tx.text} is already in use by an unspent output or a queued transaction"
  | full pending => s!"Pool is full ({pending} pending)"
  | ledger cause => cause.message

end PoolError

-- Queued transactions may conflict with each other; that is settled when a block is built.
structure Pool where
  limits : PoolLimits
  view : LedgerView
  walletKeys : KeyChain WalletId
  -- the oldest first
  pending : List Transaction

namespace Pool

def create (limits : PoolLimits) (wallets : List WalletId) : Pool :=
  ⟨limits, ⟨∅, WalletId.sorted wallets⟩, ∅, []⟩

def unspent (p : Pool) : UnspentSet :=
  p.view.unspent

def withUnspent (p : Pool) (u : UnspentSet) : Pool :=
  { p with view := { p.view with unspent := u } }

-- Funds every wallet with one output.
def initializeCoins (p : Pool) (coins : UInt64) : Pool :=
  p.withUnspent (UnspentSet.fund coins 0 p.view.receivers p.unspent)

-- Outputs are named by their transaction, so a number in use may not come again.
def idInUse (p : Pool) (id : TxId) : Bool :=
  p.pending.any (fun t => t.id = id) || p.unspent.entries.any (fun e => e.1.tx = id)

-- The first input that pays another wallet than the sender.
def foreignInput (p : Pool) (t : Transaction) : Option OutputRef :=
  t.inputs.find? fun input =>
    match p.unspent.get? input with
    | some o => !decide (o.receiver = t.sender)
    | none => false

-- What is asked of a transaction once its signature is accepted.
def admit? (p : Pool) (t : Transaction) : Except PoolError Unit :=
  match p.foreignInput t with
  | some input => .error (.notOwner t.id t.sender input)
  | none =>
    if p.idInUse t.id then .error (.duplicateTxId t.id)
    else
      match t.check p.view with
      | .error e => .error (.ledger e)
      | .ok () => .ok ()

-- Queues a transaction. The sender's key chain moves on even if it is refused after the look at
-- its signature.
def submit (p : Pool) (t : Transaction) : Except PoolError Unit × Pool :=
  if p.limits.maxPending.toNat ≤ p.pending.length then (.error (.full p.pending.length), p)
  else
    match t.checkSignature p.walletKeys with
    | (none, _) => (.error (.unsigned t.id), p)
    | (some check, walletKeys) =>
      let p := { p with walletKeys }
      if !check.isAccepted then (.error (.badSignature t.id t.sender), p)
      else
        match p.admit? t with
        | .error e => (.error e, p)
        | .ok () => (.ok (), { p with pending := p.pending ++ [t] })

-- Takes transactions off the front of a queue until the draft is full. Those that may not be spent
-- any more, or spend what the draft spends, are dropped.
def fill (view : LedgerView) (max : Nat) : List Transaction → Draft → Draft × List Transaction
  | [], d => (d, [])
  | t :: rest, d =>
    if d.transactions.length < max then
      if t.maySpend view then
        match d.tryAdd t with
        | .ok d => fill view max rest d
        | .error _ => fill view max rest d
      else fill view max rest d
    else (d, t :: rest)

-- The next block, if anything is queued.
def buildBlock (p : Pool) (height : Height) (parent : Digest) : Option Block × Pool :=
  if p.pending.isEmpty then (none, p)
  else
    let (d, pending) :=
      fill p.view p.limits.maxBlockTransactions.toNat p.pending (Draft.start height parent)
    (some d.finalize, { p with pending })

-- Removes inputs and counts those that are not live.
def spend : List OutputRef → UnspentSet → Nat × UnspentSet
  | [], u => (0, u)
  | input :: rest, u =>
    let (missing, left) := spend rest (u.erase input)
    (missing + (if u.contains input then 0 else 1), left)

-- Adds outputs numbered from `i`, leaving out those whose reference is live already.
def addOutputs (id : TxId) : (i : Nat) → List Output → UnspentSet → UnspentSet
  | _, [], u => u
  | i, o :: rest, u =>
    let r : OutputRef := ⟨id, UInt32.ofNat i⟩
    addOutputs id (i + 1) rest (if u.contains r then u else u.insert r o)

def applyTransactions : List Transaction → UnspentSet → Nat × UnspentSet
  | [], u => (0, u)
  | t :: rest, u =>
    let (missing, u) := spend t.inputs u
    let (later, u) := applyTransactions rest (addOutputs t.id 0 t.outputs u)
    (missing + later, u)

-- Applies a delivered block, drops queued transactions that it leaves without an input, and counts
-- the inputs that were not live.
def applyBlock (p : Pool) (b : Block) : Nat × Pool :=
  let (missing, u) := applyTransactions b.transactions p.unspent
  let p := p.withUnspent u
  (missing, { p with pending := p.pending.filter fun t => t.inputs.all u.contains })

end Pool

end QuorumLedger
