namespace QuorumLedger

-- The operation whose result does not fit.
inductive Overflow where
  | addition
  | subtraction
  | multiplication
  deriving DecidableEq

namespace Overflow

def message : Overflow → String
  | addition => "attempt to add with overflow"
  | subtraction => "attempt to subtract with overflow"
  | multiplication => "attempt to multiply with overflow"

end Overflow

namespace Checked

-- One more than the largest number of 64 bits.
def limit : Nat := UInt64.size

def add (a b : Nat) : Except Overflow Nat :=
  if a + b < limit then .ok (a + b) else .error .addition

def mul (a b : Nat) : Except Overflow Nat :=
  if a * b < limit then .ok (a * b) else .error .multiplication

def sub (a b : Nat) : Except Overflow Nat :=
  if b ≤ a then .ok (a - b) else .error .subtraction

theorem add_eq_ok {a b : Nat} (h : a + b < limit) : add a b = .ok (a + b) :=
  if_pos h

theorem mul_eq_ok {a b : Nat} (h : a * b < limit) : mul a b = .ok (a * b) :=
  if_pos h

end Checked

end QuorumLedger
