import QuorumLedger.Committee

namespace QuorumLedger

-- A committee with the pool of its leader. For each height a block is built and proposed, and it is
-- applied once every honest validator has delivered it.
structure Cluster (σ : Type) where
  settings : Settings
  committee : Committee σ
  pool : Pool
  -- of the next block
  height : Height
  parent : Digest

inductive ClusterError where
  | settings (cause : SettingsError)
  | validator (cause : ValidatorError)
  | timeout (height : Height) (delivered expected : Nat)
  | disagreement (height : Height)
  | overflow (cause : Overflow)
  deriving DecidableEq

def ClusterError.message : ClusterError → String
  | .settings cause => cause.message
  | .validator cause => cause.message
  | .timeout height delivered expected =>
    s!"Height {height.text}: only {delivered} of {expected} honest validators delivered in time"
  | .disagreement height => s!"Height {height.text}: validators delivered different blocks"
  | .overflow cause => cause.message

-- The delivered block with the votes that the leader collected, and what each validator delivered.
structure RoundOutcome where
  block : Block
  votes : List (ValidatorId × Option Digest)

def RoundOutcome.agreeing (o : RoundOutcome) : Nat :=
  o.votes.countP fun v => v.2 = some o.block.id

namespace Cluster

def start (s : Settings) (config : NetworkConfig) (sources : Nat → KeySource) :
    Except ClusterError (Cluster ChaCha) :=
  match s.validate with
  | .error e => .error (.settings e)
  | .ok () =>
    match Committee.start s config sources with
    | .error e => .error (.validator e)
    | .ok committee =>
      let pool := (Pool.create s.pool s.wallets).initializeCoins s.initialCoins
      .ok ⟨s, committee, pool, ⟨1⟩, Bytes32.zero⟩

variable {σ : Type} [WordSource σ]

def submit (c : Cluster σ) (t : Transaction) : Except PoolError Unit × Cluster σ :=
  let (result, pool) := c.pool.submit t
  (result, { c with pool })

-- The next block from the pool, or an empty one.
def nextBlock (c : Cluster σ) : Block × Cluster σ :=
  let (block, pool) := c.pool.buildBlock c.height c.parent
  (block.getD (Draft.start c.height c.parent).finalize, { c with pool })

def isHonest (r : Replica) : Bool :=
  r.role.faults.isNone

def votes (c : Cluster σ) : List (ValidatorId × Option Digest) :=
  c.committee.replicas.map fun r => (r.id, r.tally.voted)

-- Whether every honest validator has delivered a block, and the same.
def outcome (c : Cluster σ) (b : Block) : Except ClusterError (List (ValidatorId × Option Digest)) :=
  let honest := c.committee.replicas.filter isHonest
  let delivered := honest.countP Replica.isDelivered
  if delivered < honest.length then .error (.timeout c.height delivered honest.length)
  else if honest.any fun r => !decide (r.tally.voted = some b.id) then .error (.disagreement c.height)
  else .ok c.votes

-- Applies what the leader delivered last and goes on to the next height.
def conclude (c : Cluster σ) (b : Block) (votes : List (ValidatorId × Option Digest)) :
    Except ClusterError RoundOutcome × Cluster σ :=
  let taken := ((c.committee.find? c.settings.leader).map Replica.deliveredBlocks).getD []
  let block := taken.getLast?.getD b
  let c := { c with committee := c.committee.takeDelivered }
  let c := { c with pool := (c.pool.applyBlock block).2, parent := b.id }
  match c.height.next with
  | .ok height => (.ok ⟨block, votes⟩, { c with height })
  | .error e => (.error (.overflow e), c)

-- Agrees on a block. What is still under way is handled first; the second schedule lasts from the
-- proposal to the end of the wait.
def runRound (c : Cluster σ) (b : Block) (before after : Schedule) :
    Except ClusterError RoundOutcome × Cluster σ :=
  let settled := c.committee.follow Committee.isQuiet before
  match (settled.startRun c.pool.view).propose c.settings.leader b with
  | (.error e, committee) => (.error (.validator e), { c with committee })
  | (.ok (), committee) =>
    let c := { c with committee := committee.follow Committee.isFinished after }
    match c.outcome b with
    | .error e => (.error e, c)
    | .ok votes => c.conclude b votes

def runNext (c : Cluster σ) (before after : Schedule) :
    Except ClusterError RoundOutcome × Cluster σ :=
  let (b, c) := c.nextBlock
  c.runRound b before after

def diagnostic (c : Cluster σ) : String :=
  s!"Cluster \x7b validators: {c.committee.replicas.length}, height: {c.height.diagnostic}, network: {c.committee.network.diagnostic}, .. \x7d"

end Cluster

end QuorumLedger
