import QuorumLedger.Consensus.Role
import QuorumLedger.Consensus.Tally
import QuorumLedger.Consensus.Thresholds

namespace QuorumLedger

-- One validator of a committee that agrees on a block by reliable broadcast.
structure Replica where
  id : ValidatorId
  role : Role
  thresholds : Thresholds
  committee : List ValidatorId
  signer : Signer
  keyChain : KeyChain ValidatorId
  view : LedgerView
  -- the blocks that passed the ledger's rules in this run
  verified : List Digest
  -- the first copy of every such block with the votes that came for it
  blocks : Table Digest Block
  tally : Tally
  -- delivered blocks that nobody took yet
  delivered : List Digest
  -- every block delivered in this run or an earlier one
  finalized : List Digest

inductive ProposalError where
  | notProposer (validator : ValidatorId)
  | signature (cause : SignatureError)
  deriving DecidableEq

def ProposalError.message : ProposalError → String
  | .notProposer validator => validator.text ++ " is not the proposer"
  | .signature cause => "Signing failed: " ++ cause.message

namespace Replica

def create (id : ValidatorId) (role : Role) (thresholds : Thresholds)
    (committee : List ValidatorId) (signer : Signer) : Replica :=
  ⟨id, role, thresholds, committee, signer, ∅, ⟨∅, []⟩, [], ∅, .start, [], []⟩

def isDelivered (r : Replica) : Bool :=
  r.tally.isDelivered

-- Nothing is left to do in this run.
def isFinished (r : Replica) : Bool :=
  !r.role.participates || r.isDelivered

def deliveredBlocks (r : Replica) : List Block :=
  r.delivered.filterMap r.blocks.get?

def takeDelivered (r : Replica) : List Block × Replica :=
  (r.deliveredBlocks, { r with delivered := [] })

-- Key chains, and delivered blocks that nobody took yet, outlive a run.
def startRun (r : Replica) (view : LedgerView) : Replica :=
  { r with
    view
    verified := []
    blocks := r.blocks.retain fun d => decide (d ∈ r.delivered)
    tally := .start }

-- Seals a block with the next key; collected votes are not passed on.
def sign (r : Replica) (kind : MessageKind) (b : Block) (round : UInt16) :
    Except SignatureError Message × Replica :=
  match b.withoutVotes.signWith r.signer r.id with
  | (.ok b, signer) => (.ok ⟨kind, b, r.id, round⟩, { r with signer })
  | (.error e, signer) => (.error e, { r with signer })

def propose (r : Replica) (b : Block) : Except ProposalError (List Action) × Replica :=
  if r.role.isProposer then
    match r.sign .send b Round.send with
    | (.ok m, r) => (.ok [.broadcast m], r)
    | (.error e, r) => (.error (.signature e), r)
  else
    (.error (.notProposer r.id), r)

-- Counts a message for a block that passed.
def record (r : Replica) (m : Message) (vote : CollectedVote) : Replica :=
  let d := m.blockId
  let block := (r.blocks.get? d).getD m.block.withoutVotes
  { r with
    blocks := r.blocks.set d (block.collect vote)
    tally :=
      match m.kind with
      | .send => r.tally.recordSend d
      | .echo => r.tally.recordEcho d
      | .ready => r.tally.recordReady d }

-- Whether a block passes, if need be by a look at the ledger that is then remembered.
def verify (r : Replica) (m : Message) : Bool × Replica :=
  let d := m.blockId
  if d ∈ r.verified then (true, r)
  else if m.block.isValid r.view then (true, { r with verified := d :: r.verified })
  else (false, r)

-- Takes one message and tells whether it counts. The signer's key chain moves on in any case.
def onMessage (r : Replica) (m : Message) : Bool × Replica :=
  match m.block.checkSeal r.keyChain with
  | (none, _) => (false, r)
  | (some (s, check), keyChain) =>
    let r := { r with keyChain }
    if !check.isAccepted then (false, r)
    else if m.blockId ∈ r.finalized then (false, r)
    else
      match r.verify m with
      | (false, r) => (false, r)
      | (true, r) => (true, r.record m ⟨s.signer, s.signature, check.verifyingKey, m.round⟩)

def onMessages (r : Replica) (batch : List Message) : Replica :=
  batch.foldl (fun r m => (r.onMessage m).2) r

-- A SEND that an earlier batch left is forgotten.
def processBatch (r : Replica) (batch : List Message) : Replica :=
  { r with tally := r.tally.clearSend }.onMessages batch

-- The vote for a block that is held; a vote that cannot be signed is not sent.
def vote (r : Replica) (kind : MessageKind) (d : Digest) (round : UInt16) :
    List Action × Replica :=
  match r.blocks.get? d with
  | none => ([], r)
  | some b =>
    match r.sign kind b round with
    | (.ok m, r) => ([.broadcast m], r)
    | (.error _, r) => ([], r)

def echoPending (r : Replica) : List Action × Replica :=
  match r.tally.pendingSend with
  | none => ([], r)
  | some d => { r with tally := r.tally.clearSend }.vote .echo d Round.echo

-- Sends READY for a block, unless it was sent before.
def declareReady (r : Replica) (d : Digest) (round : UInt16) : List Action × Replica :=
  match r.tally.markReady d with
  | (false, _) => ([], r)
  | (true, tally) => { r with tally }.vote .ready d round

def readyFromEchoes (r : Replica) : List Digest → List Action × Replica
  | [] => ([], r)
  | d :: rest =>
    let (now, r) := r.declareReady d Round.readyFromEcho
    let (later, r) := readyFromEchoes r rest
    (now ++ later, r)

def deliver (r : Replica) (d : Digest) : List Action × Replica :=
  let height := ((r.blocks.get? d).map (·.height)).getD .genesis
  ([.delivered d height],
    { r with
      tally := r.tally.deliver d
      delivered := r.delivered ++ [d]
      finalized := d :: r.finalized })

-- Goes through READY counts up to the first that delivers.
def readyFromReadies (r : Replica) : List (Digest × Nat) → List Action × Replica
  | [] => ([], r)
  | (d, count) :: rest =>
    let (now, r) :=
      if r.thresholds.readyQuorum ≤ count then r.declareReady d Round.readyFromReady else ([], r)
    if r.thresholds.delivers count then
      let (last, r) := r.deliver d
      (now ++ last, r)
    else
      let (later, r) := readyFromReadies r rest
      (now ++ later, r)

-- What follows from the votes counted so far.
def endOfRound (r : Replica) : List Action × Replica :=
  let (echo, r) := r.echoPending
  let (ready, r) := r.readyFromEchoes (r.tally.echoed r.thresholds.echoQuorum)
  let (more, r) := r.readyFromReadies r.tally.readies.entries
  (echo ++ (ready ++ more), r)

-- After delivery a replica only follows the key chains, so that the next run can verify.
def handleBatch (r : Replica) (batch : List Message) : List Action × Replica :=
  if !r.role.participates then ([], r)
  else if r.isDelivered then ([], r.onMessages batch)
  else
    let (actions, r) := (r.processBatch batch).endOfRound
    (r.role.shape r.id r.committee actions, r)

-- Whether the thresholds that the end of a round asks for fit 64 bits.
def thresholdsFit (r : Replica) : Except Overflow Unit := do
  let _ ← r.thresholds.echoQuorum?
  if !r.tally.readies.entries.isEmpty then
    let _ ← r.thresholds.readyQuorum?
    let _ ← r.thresholds.deliveryThreshold?

-- As `endOfRound`, but stops where a threshold does not fit.
def endOfRound? (r : Replica) : Except Overflow (List Action × Replica) := do
  r.thresholdsFit
  pure r.endOfRound

def handleBatch? (r : Replica) (batch : List Message) : Except Overflow (List Action × Replica) := do
  if r.role.participates && !r.isDelivered then
    (r.processBatch batch).thresholdsFit
  pure (r.handleBatch batch)

def votedText (r : Replica) : String :=
  LedgerError.rootText r.tally.voted

def diagnostic (r : Replica) : String :=
  s!"BrachaState \x7b validator_id: {r.id.diagnostic}, role: {r.role.diagnostic}, phase: {r.tally.phase.text}, voted_hash: {r.votedText}, .. \x7d"

end Replica

end QuorumLedger
