import QuorumLedger.Consensus.Replica

namespace QuorumLedger

-- In each tick every replica is handed, as one batch, what was sent to it in the tick before.
structure Lockstep where
  replicas : List Replica
  -- for each replica the key that it disclosed last
  keys : List PublicKey
  -- every message so far, in the order of sending
  sent : List Action

-- What a replica did. A message comes with its number among those sent and with whether it is
-- sealed with the key that the replica disclosed before.
structure Posting where
  action : Action
  sentAs : Option (Nat × Bool)

namespace Lockstep

-- The replicas with the public keys of their first signatures.
def start (members : List (Replica × PublicKey)) : Lockstep :=
  ⟨members.map (·.1), members.map (·.2), []⟩

def message? (l : Lockstep) (number : Nat) : Option Message :=
  (l.sent[number]?).bind Action.message?

def put (l : Lockstep) (i : Nat) (r : Replica) : Lockstep :=
  { l with replicas := l.replicas.set i r }

def post (i : Nat) : List Action → Lockstep → List Posting × Lockstep
  | [], l => ([], l)
  | a :: rest, l =>
    match a.message? with
    | none =>
      let (later, l) := post i rest l
      (⟨a, none⟩ :: later, l)
    | some m =>
      let chained := (l.keys[i]?).any m.block.verifySeal
      let keys :=
        match m.block.sealedBy.bind (·.nextKey) with
        | some key => l.keys.set i key
        | none => l.keys
      let number := l.sent.length
      let (later, l) := post i rest { l with keys, sent := l.sent ++ [a] }
      (⟨a, some (number, chained)⟩ :: later, l)

-- What of the pending messages goes to the `i`-th replica.
def inbound (leader i : Nat) (pending : List Action) : List Message :=
  pending.filterMap fun a =>
    match a with
    | .broadcast m => some m
    | .sendToLeader m => if i = leader then some m else none
    | .delivered _ _ => none

-- Hands a batch to a replica that has one.
def turn (leader : Nat) (pending : List Action) (i : Nat) (l : Lockstep) :
    Except Overflow (List Posting × Lockstep) :=
  match l.replicas[i]?, inbound leader i pending with
  | none, _ => .ok ([], l)
  | _, [] => .ok ([], l)
  | some r, batch => do
    let (actions, r) ← r.handleBatch? batch
    pure (post i actions (l.put i r))

def tick (leader : Nat) (pending : List Action) : List Nat → Lockstep →
    Except Overflow (List (List Posting) × Lockstep)
  | [], l => .ok ([], l)
  | i :: rest, l => do
    let (now, l) ← turn leader pending i l
    let (later, l) ← tick leader pending rest l
    pure (now :: later, l)

-- Runs from the message with a given number until no message is pending, or for as many ticks as
-- are allowed.
def exchange (leader : Nat) : (ticks first : Nat) → Lockstep →
    Except Overflow (List (List (List Posting)) × Lockstep)
  | 0, _, l => .ok ([], l)
  | ticks + 1, first, l =>
    match l.sent.drop first with
    | [] => .ok ([], l)
    | pending => do
      let (now, next) ← tick leader pending (List.range l.replicas.length) l
      let (later, next) ← exchange leader ticks l.sent.length next
      pure (now :: later, next)

end Lockstep

end QuorumLedger
