import QuorumLedger.Checked

namespace QuorumLedger

structure Thresholds where
  validators : UInt64 := 4
  faulty : UInt64 := 1
  deriving DecidableEq

namespace Thresholds

-- ECHOs needed before READY is sent.
def echoQuorum (t : Thresholds) : Nat :=
  (t.validators.toNat + t.faulty.toNat + 1) / 2

-- READYs of others needed before READY is sent along with them.
def readyQuorum (t : Thresholds) : Nat :=
  t.faulty.toNat + 1

-- Delivery takes more READYs than this.
def deliveryThreshold (t : Thresholds) : Nat :=
  2 * t.faulty.toNat + 1

def delivers (t : Thresholds) (readies : Nat) : Bool :=
  t.deliveryThreshold < readies

def echoQuorum? (t : Thresholds) : Except Overflow Nat := do
  let sum ← Checked.add t.validators.toNat t.faulty.toNat
  let sum ← Checked.add sum 1
  pure (sum / 2)

def readyQuorum? (t : Thresholds) : Except Overflow Nat :=
  Checked.add t.faulty.toNat 1

def deliveryThreshold? (t : Thresholds) : Except Overflow Nat := do
  let twice ← Checked.mul 2 t.faulty.toNat
  Checked.add twice 1

end Thresholds

end QuorumLedger
