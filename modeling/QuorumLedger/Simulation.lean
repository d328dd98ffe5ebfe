import QuorumLedger.Cluster
import QuorumLedger.Settings.Format
import QuorumLedger.Wallet

namespace QuorumLedger.Simulation

structure Options where
  -- the path of a settings file, which takes the place of the validators and their faults
  config : Option String := none
  validators : UInt64 := 4
  faulty : List (ValidatorId × Faults) := []
  rounds : UInt64 := 3
  transfers : UInt64 := 4
  maxAmount : UInt64 := 10
  loss : Float := 0
  seed : UInt64 := 12345
  timeoutSeconds : UInt64 := 10

-- A failure: what was being done, and its causes from the outermost on.
structure Failure where
  headline : String
  causes : List String

namespace Failure

-- A text behind a label. Its further lines stand below where it begins.
def labelled (label text : String) : List String :=
  match text.splitOn "\n" with
  | [] => []
  | line :: rest => (label ++ line) :: rest.map ("".pushn ' ' label.length ++ ·)

def numbered (i : Nat) : List String → List String
  | [] => []
  | cause :: rest => labelled s!"    {i}: " cause ++ numbered (i + 1) rest

def lines (f : Failure) : List String :=
  ("Error: " ++ f.headline).splitOn "\n" ++
    match f.causes with
    | [] => []
    | [cause] => ["", "Caused by:"] ++ labelled "    " cause
    | causes => "" :: "Caused by:" :: numbered 0 causes

end Failure

-- A settings error with the cause that it wraps.
def causesOf : SettingsError → List String
  | .io path cause => [(SettingsError.io path cause).message, cause.message]
  | .parse cause => [(SettingsError.parse cause).message, cause.message?.getD "malformed text"]
  | e => [e.message]

-- A span of nanoseconds in the largest unit that it fills, without zeros at the end.
def durationText (nanos : Nat) : String :=
  let shown (unit : Nat) (places : Nat) (name : String) : String :=
    let tail := (toString (Nat.pow 10 places + nanos % unit)).toList.drop 1
    let tail := (tail.reverse.dropWhile (· = '0')).reverse
    toString (nanos / unit) ++ (if tail.isEmpty then "" else "." ++ String.ofList tail) ++ name
  if 1000000000 ≤ nanos then shown 1000000000 9 "s"
  else if 1000000 ≤ nanos then shown 1000000 6 "ms"
  else if 1000 ≤ nanos then shown 1000 3 "µs"
  else toString nanos ++ "ns"

structure Session where
  cluster : Cluster ChaCha
  wallets : WalletPool
  walletIds : List WalletId
  workload : Workload
  random : ChaCha
  transfers : Nat
  timeoutMillis : Nat

-- Sources of keys derived from a secret, one for each purpose and number.
def keySources (secret : Bytes32) (purpose : String) (i : Nat) : KeySource :=
  KeySource.ofSecret (Digest.of (secret.toList ++ (Bytes.ofText purpose ++ Bytes.littleEndian 8 i)))

def settingsOf (o : Options) (file : Except FileError String) : Except Failure Settings :=
  match o.config with
  | none =>
    .ok (o.faulty.foldl (fun s f => s.withFaults f.1 f.2) (Settings.ofCount o.validators.toNat))
  | some path =>
    match Settings.ofFile path file with
    | .ok s => .ok s
    | .error e => .error ⟨"loading settings from " ++ path, causesOf e⟩

-- The file is what the path of the settings leads to.
def Session.start (o : Options) (file : Except FileError String) (secret : Bytes32) :
    Except Failure Session := do
  let settings ← settingsOf o file
  let network := ({ seed := o.seed } : NetworkConfig).withRates o.loss 0
  match Cluster.start settings network (keySources secret "validator") with
  | .error (.settings e) => .error ⟨"starting cluster", causesOf e⟩
  | .error e => .error ⟨"starting cluster", [e.message]⟩
  | .ok cluster =>
    match WalletPool.create (keySources secret "wallet") settings.wallets with
    | .error e => .error ⟨"creating wallets", [e.message]⟩
    | .ok wallets =>
      pure ⟨cluster, wallets, settings.wallets, Workload.ofMax o.maxAmount, ChaCha.ofSeed o.seed,
        o.transfers.toNat, 1000 * o.timeoutSeconds.toNat⟩

namespace Session

def heading (s : Session) : String :=
  let settings := s.cluster.settings
  s!"Committee of {settings.validators.length} (f = {settings.faultBound}), leader {settings.leader.text}, {s.walletIds.length} wallets"

-- Offers transactions to the pool; a line tells of each that is refused.
def submitAll (c : Cluster ChaCha) : List Transaction → List String × Cluster ChaCha
  | [] => ([], c)
  | t :: rest =>
    let (result, c) := c.submit t
    let line :=
      match result with
      | .ok () => []
      | .error e => [s!"  {t.id.text} rejected: {e.message}"]
    let (lines, c) := submitAll c rest
    (line ++ lines, c)

-- The draws that a random choice may take before it is given up.
def attempts : Nat := 100000

def submitBatch (s : Session) : List String × Session :=
  match s.workload.batch s.wallets s.cluster.pool.unspent s.transfers attempts s.random with
  | none => ([], s)
  | some (batch, wallets, random) =>
    let (lines, cluster) := submitAll s.cluster batch
    (lines, { s with cluster, wallets, random })

def agree (s : Session) : Except ClusterError RoundOutcome × Session :=
  let events := s.cluster.committee.schedule s.timeoutMillis
  let (result, cluster) := s.cluster.runNext events events
  (result, { s with cluster })

def outcomeLine (o : RoundOutcome) (nanos : Nat) : String :=
  s!"Height {o.block.height.value.toNat}: block {Digest.short o.block.id} with {o.block.transactions.length} transactions, {o.agreeing} of {o.votes.length} validators agreed, {o.block.votes.length} signatures, {durationText nanos}"

def closing (s : Session) : List String :=
  "Balances:" ::
    s.walletIds.map (fun id => s!"  {id.text}: {(s.cluster.pool.unspent.balanceOf id).toNat}") ++
    ["Network: " ++ s.cluster.committee.network.stats.diagnostic]

end Session

variable {m : Type → Type} [Monad m]

-- Agrees on blocks for a number of heights, up to the first failure.
def rounds (say : String → m Unit)
    (timed : (Unit → Except ClusterError RoundOutcome × Session) →
      m ((Except ClusterError RoundOutcome × Session) × Nat)) :
    Nat → Session → m (Except Failure Session)
  | 0, s => pure (.ok s)
  | n + 1, s => do
    let (lines, s) := s.submitBatch
    lines.forM say
    let ((result, s), nanos) ← timed fun _ => s.agree
    match result with
    | .error e => pure (.error ⟨e.message, []⟩)
    | .ok o =>
      say (Session.outcomeLine o nanos)
      rounds say timed n s

-- Runs a simulation and gives its failure, if it has one.
def run (say : String → m Unit)
    (timed : (Unit → Except ClusterError RoundOutcome × Session) →
      m ((Except ClusterError RoundOutcome × Session) × Nat))
    (o : Options) (file : Except FileError String) (secret : Bytes32) : m (Option Failure) := do
  match Session.start o file secret with
  | .error f => pure (some f)
  | .ok s =>
    say s.heading
    match ← rounds say timed o.rounds.toNat s with
    | .error f => pure (some f)
    | .ok s =>
      s.closing.forM say
      pure none

end QuorumLedger.Simulation
