import QuorumLedger.Consensus.Replica
import QuorumLedger.Network
import QuorumLedger.Settings.Basic

namespace QuorumLedger

-- The validators of a deployment. Each has a worker that takes all that waits in the inbox, hands it
-- to the replica and then sends what follows.
structure Committee (σ : Type) where
  network : Network σ
  replicas : List Replica
  -- what each worker is about to send, and from what time on
  outbox : Table ValidatorId (Nat × List Action)
  -- how long a worker that delays holds back what it sends
  delayMillis : Nat
  now : Nat

inductive Event where
  | turn (validator : ValidatorId)
  -- a millisecond goes by
  | tick
  deriving DecidableEq

-- Events that happen over and over.
structure Schedule where
  events : List Event
  times : Nat

inductive ValidatorError where
  | unknownValidator (validator : ValidatorId)
  | proposal (cause : ProposalError)
  | network (cause : NetworkError)
  | keyGeneration (cause : SignatureError)
  deriving DecidableEq

def ValidatorError.message : ValidatorError → String
  | .unknownValidator validator => validator.text ++ " is not configured"
  | .proposal cause => cause.message
  | .network cause => cause.message
  | .keyGeneration cause => "Key generation failed: " ++ cause.message

-- A validator of a deployment with a new chain of keys.
def Settings.replica (s : Settings) (id : ValidatorId) (source : KeySource) :
    Except ValidatorError Replica :=
  if (s.find? id).isNone then .error (.unknownValidator id)
  else
    match Signer.create source with
    | .error e => .error (.keyGeneration e)
    | .ok signer => .ok (Replica.create id (s.roleOf id) s.thresholds s.committee signer)

namespace Committee

def replicasFrom (s : Settings) (sources : Nat → KeySource) : (i : Nat) → List ValidatorId →
    Except ValidatorError (List Replica)
  | _, [] => .ok []
  | i, id :: rest => do
    let r ← s.replica id (sources i)
    let later ← replicasFrom s sources (i + 1) rest
    pure (r :: later)

-- The validators of a deployment. The keys of the `i`-th one come from the `i`-th source.
def start (s : Settings) (config : NetworkConfig) (sources : Nat → KeySource) :
    Except ValidatorError (Committee ChaCha) := do
  let rs ← replicasFrom s sources 0 s.committee
  pure ⟨Network.create config s.committee s.leader, rs, ∅, s.faultDelayMillis.toNat, 0⟩

variable {σ : Type} [WordSource σ]

def find? (c : Committee σ) (id : ValidatorId) : Option Replica :=
  c.replicas.find? fun r => r.id = id

def members (c : Committee σ) : List ValidatorId :=
  c.replicas.map (·.id)

-- Puts a replica in the place of the one with its number.
def put (r : Replica) : List Replica → List Replica
  | [] => []
  | s :: rest => if s.id = r.id then r :: rest else s :: put r rest

-- Sends what a validator's actions ask for. A message that cannot be sent is given up.
def perform (self : ValidatorId) : List Action → Network σ → Network σ
  | [], n => n
  | .broadcast m :: rest, n => perform self rest (n.broadcast self m).2
  | .sendToLeader m :: rest, n => perform self rest (n.sendToLeader self m).2
  | .delivered _ _ :: rest, n => perform self rest n

-- Sends what a validator's worker holds.
def send (c : Committee σ) (id : ValidatorId) : Committee σ :=
  match c.outbox.get? id with
  | none => c
  | some (_, actions) =>
    { c with network := perform id actions c.network, outbox := c.outbox.erase id }

-- When a replica's actions are to be sent.
def wakeTime (c : Committee σ) (r : Replica) (actions : List Action) : Nat :=
  if r.role.faults.delaySend && actions.any Action.isSend then c.now + c.delayMillis else c.now

-- Hands a validator what waits in its inbox.
def handle (c : Committee σ) (id : ValidatorId) : Committee σ :=
  match c.find? id with
  | none => c
  | some r =>
    match c.network.drain id with
    | ([], _) => c
    | (batch, network) =>
      let (actions, r) := r.handleBatch batch
      { c with
        network
        replicas := put r c.replicas
        outbox := c.outbox.set id (c.wakeTime r actions, actions) }

-- One turn of a validator's worker. It handles no batch before the last one's actions are sent, so
-- its messages reach the others in the order in which they were signed.
def turn (c : Committee σ) (id : ValidatorId) : Committee σ :=
  match c.outbox.get? id with
  | none => c.handle id
  | some (wake, _) => if wake ≤ c.now then c.send id else c

def step (c : Committee σ) : Event → Committee σ
  | .turn id => c.turn id
  | .tick => { c with now := c.now + 1 }

-- Runs events, but no more of them once the committee is where it should be.
def runUntil (done : Committee σ → Bool) : List Event → Committee σ → Committee σ
  | [], c => c
  | e :: rest, c => if done c then c else runUntil done rest (c.step e)

def repeatUntil (done : Committee σ → Bool) (events : List Event) : Nat → Committee σ → Committee σ
  | 0, c => c
  | n + 1, c => if done c then c else repeatUntil done events n (c.runUntil done events)

-- Runs a schedule, but no more of it once the committee is where it should be.
def follow (c : Committee σ) (done : Committee σ → Bool) (s : Schedule) : Committee σ :=
  repeatUntil done s.events s.times c

-- A turn for every member in order, each millisecond.
def schedule (c : Committee σ) (millis : Nat) : Schedule :=
  ⟨c.members.map Event.turn ++ [.tick], millis⟩

-- Nothing is left to handle, nor to send by now.
def isQuiet (c : Committee σ) : Bool :=
  c.network.isIdle && c.outbox.entries.all fun e => decide (c.now < e.2.1)

-- Everyone that takes part has delivered.
def isFinished (c : Committee σ) : Bool :=
  c.replicas.all Replica.isFinished

def startRun (c : Committee σ) (view : LedgerView) : Committee σ :=
  { c with replicas := c.replicas.map fun r => r.startRun view }

-- Has a validator propose a block, once its worker has sent what it holds.
def propose (c : Committee σ) (id : ValidatorId) (b : Block) :
    Except ValidatorError Unit × Committee σ :=
  let c := c.send id
  match c.find? id with
  | none => (.error (.unknownValidator id), c)
  | some r =>
    match r.propose b with
    | (.error e, r) => (.error (.proposal e), { c with replicas := put r c.replicas })
    | (.ok actions, r) =>
      (.ok (), { c with network := perform id actions c.network, replicas := put r c.replicas })

def takeDelivered (c : Committee σ) : Committee σ :=
  { c with replicas := c.replicas.map fun r => r.takeDelivered.2 }

end Committee

-- How a validator is shown.
def Replica.handleText (r : Replica) : String :=
  s!"ValidatorHandle \x7b id: {r.id.diagnostic}, role: {r.role.diagnostic}, running: true, .. \x7d"

end QuorumLedger
