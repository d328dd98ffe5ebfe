import QuorumLedger.Ascending
import QuorumLedger.Checked

namespace QuorumLedger

structure ValidatorId where
  value : UInt64
  deriving DecidableEq

structure WalletId where
  value : UInt32
  deriving DecidableEq

structure TxId where
  value : UInt32
  deriving DecidableEq

structure Height where
  value : UInt64
  deriving DecidableEq

namespace ValidatorId

def text (v : ValidatorId) : String :=
  s!"Validator({v.value.toNat})"

def diagnostic (v : ValidatorId) : String :=
  s!"ValidatorId({v.value.toNat})"

-- The distinct validators of a list in ascending order.
def sorted (validators : List ValidatorId) : List ValidatorId :=
  Ascending.ofList (fun v => v.value.toNat) validators

end ValidatorId

namespace WalletId

def text (w : WalletId) : String :=
  s!"Wallet({w.value.toNat})"

def diagnostic (w : WalletId) : String :=
  s!"WalletId({w.value.toNat})"

-- The distinct wallets of a list in ascending order.
def sorted (wallets : List WalletId) : List WalletId :=
  Ascending.ofList (fun w => w.value.toNat) wallets

end WalletId

namespace TxId

def text (t : TxId) : String :=
  s!"Tx({t.value.toNat})"

def diagnostic (t : TxId) : String :=
  s!"TxId({t.value.toNat})"

end TxId

namespace Height

def genesis : Height :=
  ⟨0⟩

def text (h : Height) : String :=
  s!"Block({h.value.toNat})"

def diagnostic (h : Height) : String :=
  s!"BlockHeight({h.value.toNat})"

def next (h : Height) : Except Overflow Height :=
  (Checked.add h.value.toNat 1).map fun n => ⟨UInt64.ofNat n⟩

def prev (h : Height) : Option Height :=
  if h.value = 0 then none else some ⟨h.value - 1⟩

end Height

end QuorumLedger
