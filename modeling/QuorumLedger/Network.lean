import QuorumLedger.Inbox
import QuorumLedger.Random.ChaCha
import QuorumLedger.Table
import QuorumLedger.Wire.Envelope

namespace QuorumLedger

structure NetworkConfig where
  -- the chance that a copy is lost, and that one arrives twice
  loss : Float := 0
  duplicates : Float := 0
  -- whether messages are encoded and decoded on the way
  wire : Bool := true
  seed : UInt64 := 12345

namespace NetworkConfig

-- The nearest number from 0 to 1.
def clamp (x : Float) : Float :=
  if x < 0 then 0 else if 1 < x then 1 else x

def withRates (c : NetworkConfig) (loss duplicates : Float) : NetworkConfig :=
  { c with loss := clamp loss, duplicates := clamp duplicates }

end NetworkConfig

structure NetworkStats where
  -- messages handed over
  sent : Nat := 0
  -- copies put into an inbox
  delivered : Nat := 0
  -- copies lost, or stopped at a cut link
  dropped : Nat := 0
  -- second copies
  duplicated : Nat := 0
  deriving DecidableEq

def NetworkStats.diagnostic (s : NetworkStats) : String :=
  s!"NetworkStats \x7b sent: {s.sent}, delivered: {s.delivered}, dropped: {s.dropped}, duplicated: {s.duplicated} \x7d"

inductive NetworkError where
  | unknownPeer (validator : ValidatorId)
  | closed
  | codec (cause : CodecError)
  deriving DecidableEq

def NetworkError.message : NetworkError → String
  | .unknownPeer validator => "Unknown peer " ++ validator.text
  | .closed => "Network has shut down"
  | .codec cause => "Codec error: " ++ cause.message?.getD ""

-- The source of the random decisions is a parameter.
structure Network (σ : Type) where
  config : NetworkConfig
  leader : ValidatorId
  -- in ascending order
  inboxes : Table ValidatorId Inbox
  random : σ
  -- pairs that cannot reach each other, the smaller one first
  cut : List (ValidatorId × ValidatorId)
  stats : NetworkStats
  closed : Bool

namespace Network

variable {σ : Type}

def ofSource (random : σ) (config : NetworkConfig) (committee : List ValidatorId)
    (leader : ValidatorId) : Network σ :=
  ⟨config, leader, ⟨(ValidatorId.sorted committee).map fun v => (v, Inbox.empty)⟩, random, [], {},
    false⟩

def create (config : NetworkConfig) (committee : List ValidatorId) (leader : ValidatorId) :
    Network ChaCha :=
  ofSource (ChaCha.ofSeed config.seed) config committee leader

def members (n : Network σ) : List ValidatorId :=
  n.inboxes.keys

-- The name of the link between two validators, the same from both ends.
def link (a b : ValidatorId) : ValidatorId × ValidatorId :=
  if a.value ≤ b.value then (a, b) else (b, a)

def isCut (n : Network σ) (a b : ValidatorId) : Bool :=
  !decide (a = b) && decide (link a b ∈ n.cut)

-- Cuts every link between two groups.
def partition (n : Network σ) (a b : List ValidatorId) : Network σ :=
  let pairs := a.flatMap fun x => (b.filter fun y => !decide (x = y)).map (link x)
  { n with cut := pairs ++ n.cut }

-- Cuts a validator off from all others.
def isolate (n : Network σ) (v : ValidatorId) : Network σ :=
  n.partition [v] (n.members.filter fun w => !decide (w = v))

def heal (n : Network σ) : Network σ :=
  { n with cut := [] }

def close (n : Network σ) : Network σ :=
  { n with closed := true }

def isIdle (n : Network σ) : Bool :=
  n.inboxes.entries.all fun e => e.2.messages.isEmpty

-- Whether a decision with the given chance comes out. Nothing is drawn for a chance of zero.
def decide? [WordSource σ] (chance : Float) (s : σ) : Bool × σ :=
  if 0 < chance then
    let (x, s) := WordSource.fraction s
    (x < chance, s)
  else (false, s)

-- How many copies of a message arrive.
def copies [WordSource σ] (n : Network σ) (source target : ValidatorId) : Nat × Network σ :=
  if n.isCut source target then
    (0, { n with stats := { n.stats with dropped := n.stats.dropped + 1 } })
  else
    let (lost, random) := decide? n.config.loss n.random
    if lost then
      (0, { n with random, stats := { n.stats with dropped := n.stats.dropped + 1 } })
    else
      let (twice, random) := decide? n.config.duplicates random
      if twice then
        (2, { n with
          random
          stats := { n.stats with
            delivered := n.stats.delivered + 2
            duplicated := n.stats.duplicated + 1 } })
      else
        (1, { n with random, stats := { n.stats with delivered := n.stats.delivered + 1 } })

def push (n : Network σ) (target : ValidatorId) (inbox : Inbox) (m : Message) :
    (count : Nat) → Network σ
  | 0 => n
  | count + 1 =>
    let inbox := inbox.push m
    push { n with inboxes := n.inboxes.set target inbox } target inbox m count

-- What arrives of a message that is sent.
def carry (c : NetworkConfig) (m : Message) : Except CodecError Message :=
  if c.wire then Message.decode m.encode else .ok m

-- Puts copies of a message into the inboxes of the targets, one after the other.
def deliver [WordSource σ] (n : Network σ) (source : ValidatorId)
    (arriving : Except CodecError Message) :
    List ValidatorId → Except NetworkError Unit × Network σ
  | [] => (.ok (), n)
  | target :: rest =>
    match n.inboxes.get? target with
    | none => (.error (.unknownPeer target), n)
    | some inbox =>
      match n.copies source target with
      | (0, n) => deliver n source arriving rest
      | (count + 1, n) =>
        match arriving with
        | .error e => (.error (.codec e), n)
        | .ok m => deliver (n.push target inbox m (count + 1)) source arriving rest

-- A message is routed by the validator that sends it, whatever sender it claims.
def send [WordSource σ] (n : Network σ) (source : ValidatorId) (targets : List ValidatorId)
    (m : Message) : Except NetworkError Unit × Network σ :=
  if n.closed then (.error .closed, n)
  else
    { n with stats := { n.stats with sent := n.stats.sent + 1 } }.deliver source
      (carry n.config m) targets

-- The sender gets a copy too.
def broadcast [WordSource σ] (n : Network σ) (source : ValidatorId) (m : Message) :
    Except NetworkError Unit × Network σ :=
  n.send source n.members m

def sendToLeader [WordSource σ] (n : Network σ) (source : ValidatorId) (m : Message) :
    Except NetworkError Unit × Network σ :=
  n.send source [n.leader] m

-- Takes what waits for a validator.
def drain (n : Network σ) (v : ValidatorId) : List Message × Network σ :=
  match n.inboxes.get? v with
  | none => ([], n)
  | some inbox =>
    let (messages, inbox) := inbox.drain
    (messages, { n with inboxes := n.inboxes.set v inbox })

-- Only a member of the committee can be reached.
def endpoint (n : Network σ) (v : ValidatorId) : Except NetworkError ValidatorId :=
  if n.inboxes.contains v then .ok v else .error (.unknownPeer v)

def diagnostic (n : Network σ) : String :=
  s!"InMemoryNetwork \x7b validators: {n.inboxes.size}, leader: {n.leader.diagnostic}, stats: {n.stats.diagnostic}, .. \x7d"

end Network

end QuorumLedger
