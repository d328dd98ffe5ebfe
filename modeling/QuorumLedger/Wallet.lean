import QuorumLedger.Ledger.Transaction
import QuorumLedger.Random.Source

namespace QuorumLedger

structure Wallet where
  id : WalletId
  signer : Signer

namespace Wallet

-- Takes outputs, one after the other, until the amount is reached. A sum beyond the largest value
-- counts as that.
def gather (amount : UInt64) : (gathered : UInt64) → List UnspentEntry → List OutputRef × UInt64
  | gathered, [] => ([], gathered)
  | gathered, e :: rest =>
    if amount ≤ gathered then ([], gathered)
    else
      let (inputs, total) := gather amount (UnspentSet.saturatingAdd gathered e.2.value) rest
      (e.1 :: inputs, total)

-- The unsigned payment of an amount, with what is left over going back to the payer.
def payment? (payer : WalletId) (unspent : UnspentSet) (tx : TxId) (payee : WalletId)
    (amount : UInt64) : Option Transaction :=
  let (inputs, gathered) := gather amount 0 (unspent.ownedBy payer).entries
  if gathered < amount || inputs.isEmpty then none
  else
    let change := if amount < gathered then [⟨gathered - amount, payer⟩] else []
    some (Transaction.unsigned tx payer inputs (⟨amount, payee⟩ :: change))

-- A signed payment; none when the wallet cannot cover it.
def transfer (w : Wallet) (unspent : UnspentSet) (tx : TxId) (payee : WalletId) (amount : UInt64) :
    Except SignatureError (Option Transaction) × Wallet :=
  match payment? w.id unspent tx payee amount with
  | none => (.ok none, w)
  | some t =>
    match t.signWith w.signer with
    | (.ok t, signer) => (.ok (some t), { w with signer })
    | (.error e, signer) => (.error e, { w with signer })

end Wallet

structure WalletPool where
  wallets : List Wallet
  nextTx : TxId

namespace WalletPool

-- The source of keys of the `i`-th wallet is the `i`-th one.
def createFrom (sources : Nat → KeySource) : (i : Nat) → List WalletId →
    Except SignatureError (List Wallet)
  | _, [] => .ok []
  | i, id :: rest => do
    let signer ← Signer.create (sources i)
    let wallets ← createFrom sources (i + 1) rest
    pure (⟨id, signer⟩ :: wallets)

-- Transactions are numbered above those that fund the wallets.
def create (sources : Nat → KeySource) (ids : List WalletId) : Except SignatureError WalletPool := do
  let wallets ← createFrom sources 0 ids
  pure ⟨wallets, ⟨UInt32.ofNat ids.length⟩⟩

def ids (p : WalletPool) : List WalletId :=
  p.wallets.map (·.id)

def find? (p : WalletPool) (id : WalletId) : Option Wallet :=
  p.wallets.find? fun w => w.id = id

-- Replaces the first wallet with a given number.
def replace (id : WalletId) (w : Wallet) : List Wallet → List Wallet
  | [] => []
  | w' :: rest => if w'.id = id then w :: rest else w' :: replace id w rest

-- A payment between two wallets. Each call takes a transaction number, whatever comes of it.
def transfer (p : WalletPool) (unspent : UnspentSet) (payer payee : WalletId) (amount : UInt64) :
    Option Transaction × WalletPool :=
  let tx := p.nextTx
  let p := { p with nextTx := ⟨tx.value + 1⟩ }
  match p.find? payer with
  | none => (none, p)
  | some w =>
    let (result, w) := w.transfer unspent tx payee amount
    (result.toOption.join, { p with wallets := replace payer w p.wallets })

end WalletPool

-- Random transfers of up to a largest amount.
structure Workload where
  maxAmount : UInt64 := 10

namespace Workload

-- The largest amount is at least one.
def ofMax (maxAmount : UInt64) : Workload :=
  ⟨if maxAmount = 0 then 1 else maxAmount⟩

variable {σ : Type} [WordSource σ]

-- Draws wallets until one other than the payer comes up.
def drawPayee (ids : Array WalletId) (payer : WalletId) (attempts : Nat) :
    (draws : Nat) → σ → Option (WalletId × σ)
  | 0, _ => none
  | draws + 1, s =>
    match WordSource.below64 ids.size attempts s with
    | none => none
    | some (i, s) =>
      match ids[i]? with
      | none => none
      | some id => if id = payer then drawPayee ids payer attempts draws s else some (id, s)

-- One payment for each payer that can cover its amount.
def transfersFrom (w : Workload) (unspent : UnspentSet) (ids : Array WalletId) (attempts : Nat) :
    List WalletId → WalletPool → σ → Option (List Transaction × WalletPool × σ)
  | [], p, s => some ([], p, s)
  | payer :: rest, p, s => do
    let (payee, s) ← drawPayee ids payer attempts attempts s
    let (amount, s) ← WordSource.between64 1 w.maxAmount.toNat attempts s
    let (tx, p) := p.transfer unspent payer payee (UInt64.ofNat amount)
    let (later, p, s) ← transfersFrom w unspent ids attempts rest p s
    some (tx.toList ++ later, p, s)

-- Up to `count` transfers, each from another wallet. No result says that the draws ran out.
def batch (w : Workload) (p : WalletPool) (unspent : UnspentSet) (count attempts : Nat) (s : σ) :
    Option (List Transaction × WalletPool × σ) :=
  if p.wallets.length < 2 then some ([], p, s)
  else do
    let (senders, s) ← WordSource.shuffle attempts p.ids s
    w.transfersFrom unspent p.ids.toArray attempts (senders.take count) p s

end Workload

end QuorumLedger
