import QuorumLedger.Consensus.Fault
import QuorumLedger.Consensus.Message

namespace QuorumLedger

inductive Action where
  -- to every validator, the sender included
  | broadcast (message : Message)
  | sendToLeader (message : Message)
  -- a block was delivered, which ends the run for the validator
  | delivered (block : Digest) (height : Height)
  deriving DecidableEq

namespace Action

def name : Action → String
  | broadcast _ => "Broadcast"
  | sendToLeader _ => "SendToLeader"
  | delivered _ _ => "Delivered"

def message? : Action → Option Message
  | broadcast m => some m
  | sendToLeader m => some m
  | delivered _ _ => none

def isSend (a : Action) : Bool :=
  a.message?.isSome

-- Claims to come from another validator.
def relabel (sender : ValidatorId) : Action → Action
  | broadcast m => broadcast { m with sender }
  | sendToLeader m => sendToLeader { m with sender }
  | delivered block height => delivered block height

def toLeaderOnly : Action → Action
  | broadcast m => sendToLeader m
  | a => a

end Action

inductive Role where
  -- proposes the block of a run and then votes
  | proposer
  -- votes
  | regular
  | simulated (faults : Faults)
  deriving DecidableEq

namespace Role

def isProposer : Role → Bool
  | proposer => true
  | _ => false

def faults : Role → Faults
  | simulated faults => faults
  | _ => .none

def participates (r : Role) : Bool :=
  !r.faults.crash

def text : Role → String
  | proposer => "proposer"
  | regular => "regular"
  | simulated faults => "simulated(" ++ faults.text ++ ")"

def diagnostic : Role → String
  | proposer => "Proposer"
  | regular => "Regular"
  | simulated faults => "Simulated(" ++ faults.diagnostic ++ ")"

-- The element listed after the first occurrence of `x`; the first one follows the last.
def after? {α : Type} [DecidableEq α] (x : α) (xs : List α) : Option α :=
  match xs.idxOf? x with
  | none => none
  | some i => xs[(i + 1) % xs.length]?

-- The committee member in whose name an impersonator sends.
def victim? (self : ValidatorId) (committee : List ValidatorId) : Option ValidatorId :=
  (after? self committee).filter fun v => !decide (v = self)

def relabelAll (self : ValidatorId) (committee : List ValidatorId) (actions : List Action) :
    List Action :=
  match victim? self committee with
  | some v => actions.map (Action.relabel v)
  | none => actions

-- What a role's faults make of the actions of a batch.
def shape (r : Role) (self : ValidatorId) (committee : List ValidatorId) (actions : List Action) :
    List Action :=
  let faults := r.faults
  if faults.crash then actions.filter fun a => !a.isSend
  else
    let actions := if faults.wrongOrder then actions.reverse else actions
    let actions := if faults.impersonate then relabelAll self committee actions else actions
    if faults.partialSend then actions.map Action.toLeaderOnly else actions

end Role

end QuorumLedger
