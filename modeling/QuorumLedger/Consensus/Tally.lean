import QuorumLedger.Digest
import QuorumLedger.Table

namespace QuorumLedger

inductive Phase where
  -- no SEND or ECHO yet
  | waiting
  | voting
  | delivered
  deriving DecidableEq

def Phase.text : Phase → String
  | .waiting => "Waiting"
  | .voting => "Voting"
  | .delivered => "Delivered"

-- The votes of one run, counted and not told apart by sender.
structure Tally where
  echoes : Table Digest Nat
  readies : Table Digest Nat
  readySent : List Digest
  pendingSend : Option Digest
  voted : Option Digest
  phase : Phase
  deriving DecidableEq

namespace Tally

def start : Tally :=
  ⟨∅, ∅, [], none, none, .waiting⟩

def startVoting (t : Tally) : Tally :=
  if t.phase = .waiting then { t with phase := .voting } else t

def echoCount (t : Tally) (d : Digest) : Nat :=
  (t.echoes.get? d).getD 0

def readyCount (t : Tally) (d : Digest) : Nat :=
  (t.readies.get? d).getD 0

-- A later SEND takes the place of an earlier one.
def recordSend (t : Tally) (d : Digest) : Tally :=
  { t with pendingSend := some d }.startVoting

def recordEcho (t : Tally) (d : Digest) : Tally :=
  { t with echoes := t.echoes.set d (t.echoCount d + 1) }.startVoting

def recordReady (t : Tally) (d : Digest) : Tally :=
  { t with readies := t.readies.set d (t.readyCount d + 1) }

def clearSend (t : Tally) : Tally :=
  { t with pendingSend := none }

-- The blocks with at least `quorum` ECHOs.
def echoed (t : Tally) (quorum : Nat) : List Digest :=
  (t.echoes.entries.filter fun e => quorum ≤ e.2).map (·.1)

-- Adds a block to those that READY was sent for, and tells whether it is new there.
def markReady (t : Tally) (d : Digest) : Bool × Tally :=
  if d ∈ t.readySent then (false, t) else (true, { t with readySent := d :: t.readySent })

-- The votes for a delivered block are dropped.
def deliver (t : Tally) (d : Digest) : Tally :=
  { t with
    voted := some d
    phase := .delivered
    echoes := t.echoes.erase d
    readies := t.readies.erase d }

def isDelivered (t : Tally) : Bool :=
  t.phase = .delivered

end Tally

end QuorumLedger
