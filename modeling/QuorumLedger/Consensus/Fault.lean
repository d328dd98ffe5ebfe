import QuorumLedger.Text.Blank

namespace QuorumLedger

-- Faults combine.
structure Faults where
  -- takes no part in the protocol
  crash : Bool := false
  -- holds back what it sends
  delaySend : Bool := false
  -- sends to the leader alone
  partialSend : Bool := false
  -- sends in reverse order
  wrongOrder : Bool := false
  -- sends in another validator's name
  impersonate : Bool := false
  deriving DecidableEq

namespace Faults

def none : Faults :=
  {}

def isNone (f : Faults) : Bool :=
  f = none

def union (a b : Faults) : Faults :=
  ⟨a.crash || b.crash, a.delaySend || b.delaySend, a.partialSend || b.partialSend,
    a.wrongOrder || b.wrongOrder, a.impersonate || b.impersonate⟩

-- The single faults with their names.
def named : List (Faults × String) :=
  [(⟨true, false, false, false, false⟩, "crash"), (⟨false, true, false, false, false⟩, "delay_send"),
    (⟨false, false, true, false, false⟩, "partial_send"),
    (⟨false, false, false, true, false⟩, "wrong_order"),
    (⟨false, false, false, false, true⟩, "impersonate")]

def includes (a b : Faults) : Bool :=
  a.union b = a

def names (f : Faults) : List String :=
  (named.filter fun e => f.includes e.1).map (·.2)

def text (f : Faults) : String :=
  if f.isNone then "none" else String.intercalate "|" f.names

def diagnostic (f : Faults) : String :=
  if f.isNone then "(empty)" else String.intercalate " | " (f.names.map String.toUpper)

-- One bit for each fault.
def bits (f : Faults) : Nat :=
  f.crash.toNat + 2 * f.delaySend.toNat + 4 * f.partialSend.toNat + 8 * f.wrongOrder.toNat +
    16 * f.impersonate.toNat

-- How long a validator holds back what it sends, in milliseconds.
def delayMillis (f : Faults) : Option Nat :=
  if f.delaySend then some 700 else Option.none

-- A name that is none of the known ones, as it was written.
structure Unknown where
  name : String
  deriving DecidableEq

def Unknown.message (u : Unknown) : String :=
  "Unknown Byzantine behavior: " ++ u.name

-- The fault that a name stands for, in whatever case its ASCII letters are.
def ofName (part : List Char) : Except Unknown Faults :=
  let lowered := part.map Char.toLower
  if lowered = "none".toList then .ok none
  else
    match named.find? fun e => e.2.toList = lowered with
    | some e => .ok e.1
    | Option.none => .error ⟨String.ofList part⟩

def ofNames (sofar : Faults) : List (List Char) → Except Unknown Faults
  | [] => .ok sofar
  | part :: rest =>
    match ofName part with
    | .ok f => ofNames (sofar.union f) rest
    | .error e => .error e

-- The parts that name something: trimmed, the blank ones left out.
def parts (cs : List Char) : List (List Char) :=
  ((Text.split '|' cs).map Text.trim).filter fun p => !p.isEmpty

-- Reads names separated by bars.
def parse (s : String) : Except Unknown Faults :=
  ofNames none (parts s.toList)

end Faults

end QuorumLedger
