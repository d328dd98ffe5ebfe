import QuorumLedger.Proofs.Cluster.Carrying
import QuorumLedger.Proofs.Cluster.Failure

namespace QuorumLedger

theorem Table.retain_retain {κ α : Type} (t : Table κ α) (keep : κ → Bool) :
    (t.retain keep).retain keep = t.retain keep := by
  simp only [retain, List.filter_filter]
  congr 1
  exact List.filter_congr fun e _ => Bool.and_self _

-- To begin a run twice is to begin it once.
theorem Replica.startRun_startRun (r : Replica) (view : LedgerView) :
    (r.startRun view).startRun view = r.startRun view :=
  congrArg (fun blocks : Table Digest Block =>
      { r with view, verified := [], blocks, tally := Tally.start })
    (r.blocks.retain_retain fun d => decide (d ∈ r.delivered))

namespace Committee

variable {σ : Type}

-- Has the validator with a number begin a run.
def startRunOf (c : Committee σ) (v : ValidatorId) (view : LedgerView) : Committee σ :=
  { c with replicas := c.replicas.map fun r => if r.id = v then r.startRun view else r }

theorem members_startRunOf (c : Committee σ) (v : ValidatorId) (view : LedgerView) :
    (c.startRunOf v view).members = c.members := by
  simp only [members, startRunOf, List.map_map]
  refine List.map_congr_left fun r _ => ?_
  simp only [Function.comp_apply]
  split <;> rfl

theorem replicas_foldl_startRunOf (view : LedgerView) (left : List ValidatorId) (c : Committee σ) :
    left.foldl (fun c v => c.startRunOf v view) c = { c with
      replicas := c.replicas.map fun r => if r.id ∈ left then r.startRun view else r } := by
  induction left generalizing c with
  | nil => simp
  | cons v rest ih =>
      rw [List.foldl_cons, ih]
      simp only [startRunOf, List.map_map]
      congr 1
      refine List.map_congr_left fun r _ => ?_
      have hid : (r.startRun view).id = r.id := rfl
      by_cases hv : r.id = v
      · by_cases hrest : r.id ∈ rest <;>
          simp [hv ▸ hrest, hv, hid, Replica.startRun_startRun]
      · simp [hv]

-- One after the other, all begin the run.
theorem foldl_startRunOf {view : LedgerView} {left : List ValidatorId} {c : Committee σ}
    (hall : ∀ r ∈ c.replicas, r.id ∈ left) :
    left.foldl (fun c v => c.startRunOf v view) c = c.startRun view := by
  rw [replicas_foldl_startRunOf, startRun]
  congr 1
  exact List.map_congr_left fun r hr => if_pos (hall r hr)

-- What a validator sends when it proposes a block.
def proposal (c : Committee σ) (v : ValidatorId) (b : Block) : List Message :=
  ((c.find? v).map fun r => messagesOf (r.answer (.propose b)).1).getD []

end Committee

namespace Cluster

-- What a cluster is asked for: to take a transaction, or to run the next round.
inductive Request where
  | submit (t : Transaction)
  | next (before after : Schedule)

variable {σ : Type} [WordSource σ]

def answer (c : Cluster σ) : Request → Cluster σ
  | .submit t => (c.submit t).2
  | .next before after => (c.runNext before after).2

-- The rounds that are run: the block that is proposed in each, and what comes of it.
def rounds (c : Cluster σ) : List Request → List (Block × Except ClusterError RoundOutcome)
  | [] => []
  | .submit t :: rest => (c.submit t).2.rounds rest
  | .next before after :: rest =>
    (c.nextBlock.1, (c.runNext before after).1) :: (c.runNext before after).2.rounds rest

end Cluster

-- Where a cluster is between two calls for a block, or within one.
inductive Stage where
  | idle
  -- the block is chosen, and the validators that are left have not begun the run
  | opening (b : Block) (left : List ValidatorId)
  -- the block is proposed
  | waiting (b : Block)

-- What came of a round: the block that was proposed and the one that was applied.
structure Success where
  proposed : Block
  applied : Block

structure Chronicle (σ : Type) where
  cluster : Cluster σ
  stage : Stage
  -- every message that a validator made
  sent : List Message
  -- every block that was chosen
  proposed : List Block
  successes : List Success

namespace Chronicle

variable {σ : Type}

def start (c : Cluster σ) : Chronicle σ :=
  ⟨c, .idle, [], [], []⟩

-- The committee goes on. What its workers hold was made by its validators.
def goOn (x : Chronicle σ) (committee : Committee σ) : Chronicle σ :=
  { x with cluster := { x.cluster with committee }, sent := x.sent ++ committee.held }

-- A block is chosen for the next round.
def choose (x : Chronicle σ) : Chronicle σ :=
  { x with
    cluster := x.cluster.nextBlock.2
    stage := .opening x.cluster.nextBlock.1 x.cluster.committee.members
    proposed := x.proposed ++ [x.cluster.nextBlock.1] }

-- Only the committee is another, and more may have been sent.
structure Goes (x : Chronicle σ) (committee : Committee σ) (y : Chronicle σ) : Prop where
  cluster : y.cluster = { x.cluster with committee }
  proposed : y.proposed = x.proposed
  successes : y.successes = x.successes

theorem Goes.rfl {x : Chronicle σ} : x.Goes x.cluster.committee x :=
  ⟨.refl _, .refl _, .refl _⟩

theorem Goes.trans {x y z : Chronicle σ} {c c' : Committee σ} (h : x.Goes c y) (h' : y.Goes c' z) :
    x.Goes c' z :=
  ⟨by rw [h'.cluster, h.cluster], h'.proposed.trans h.proposed, h'.successes.trans h.successes⟩

theorem Goes.committee {x y : Chronicle σ} {c : Committee σ} (h : x.Goes c y) :
    y.cluster.committee = c := by
  rw [h.cluster]

-- The success that a call for a block adds, if any.
def succeeded (b : Block) : Except ClusterError RoundOutcome → List Success
  | .ok o => [⟨b, o.block⟩]
  | .error _ => []

variable [WordSource σ]

-- Workers take turns at any time, and the network may lose, repeat, hold back and reorder what it
-- carries, but makes up nothing.
inductive Step (x : Chronicle σ) : Chronicle σ → Prop
  | submit (t : Transaction) (idle : x.stage = .idle) :
      Step x { x with cluster := (x.cluster.submit t).2 }
  | work (e : Event) : Step x (x.goOn (x.cluster.committee.step e))
  | rewire (n : Network σ) (carried : ∀ e ∈ n.inboxes.entries, ∀ m ∈ e.2.messages, m ∈ x.sent) :
      Step x (x.goOn { x.cluster.committee with network := n })
  | choose (idle : x.stage = .idle) : Step x x.choose
  | begin {b : Block} {v : ValidatorId} {left : List ValidatorId}
      (stage : x.stage = .opening b (v :: left)) :
      Step x { x.goOn (x.cluster.committee.startRunOf v x.cluster.pool.view) with
        stage := .opening b left }
  | propose {b : Block} {committee : Committee σ} (stage : x.stage = .opening b [])
      (proposes : x.cluster.committee.propose x.cluster.settings.leader b = (.ok (), committee)) :
      Step x { x.goOn committee with
        stage := .waiting b
        sent := x.sent ++ x.cluster.committee.proposal x.cluster.settings.leader b }
  | refuse {b : Block} {committee : Committee σ} {e : ValidatorError}
      (stage : x.stage = .opening b [])
      (refuses : x.cluster.committee.propose x.cluster.settings.leader b = (.error e, committee)) :
      Step x { x.goOn committee with stage := .idle }
  | fail {b : Block} {e : ClusterError} (stage : x.stage = .waiting b)
      (fails : x.cluster.outcome b = .error e) : Step x { x with stage := .idle }
  | succeed {b : Block} {votes : List (ValidatorId × Option Digest)} {o : RoundOutcome}
      {c : Cluster σ} (stage : x.stage = .waiting b) (agrees : x.cluster.outcome b = .ok votes)
      (concludes : x.cluster.conclude b votes = (.ok o, c)) :
      Step x { x with
        cluster := c
        stage := .idle
        successes := x.successes ++ [⟨b, o.block⟩] }

-- All that can come of a cluster.
inductive Reachable (first : Cluster σ) : Chronicle σ → Prop
  | start : Reachable first (.start first)
  | step {x y : Chronicle σ} (before : Reachable first x) (step : Step x y) : Reachable first y

namespace Reachable

variable {first : Cluster σ} {x : Chronicle σ}

theorem runUntil (h : Reachable first x) (done : Committee σ → Bool) (events : List Event) :
    ∃ y, Reachable first y ∧ x.Goes (x.cluster.committee.runUntil done events) y ∧
      y.stage = x.stage := by
  induction events generalizing x with
  | nil => exact ⟨x, h, .rfl, rfl⟩
  | cons e rest ih =>
      unfold Committee.runUntil
      split
      · exact ⟨x, h, .rfl, rfl⟩
      · obtain ⟨y, hy, hgoes, hstage⟩ := ih (h.step (.work e))
        exact ⟨y, hy, ⟨hgoes.cluster, hgoes.proposed, hgoes.successes⟩, hstage⟩

theorem follow (h : Reachable first x) (done : Committee σ → Bool) (s : Schedule) :
    ∃ y, Reachable first y ∧ x.Goes (x.cluster.committee.follow done s) y ∧ y.stage = x.stage := by
  obtain ⟨events, times⟩ := s
  unfold Committee.follow
  induction times generalizing x with
  | zero => exact ⟨x, h, .rfl, rfl⟩
  | succ n ih =>
      unfold Committee.repeatUntil
      split
      · exact ⟨x, h, .rfl, rfl⟩
      · obtain ⟨y, hy, hgoes, hstage⟩ := h.runUntil done events
        obtain ⟨z, hz, hgoes', hstage'⟩ := ih hy
        rw [hgoes.committee] at hgoes'
        exact ⟨z, hz, hgoes.trans hgoes', hstage'.trans hstage⟩

theorem beginAll (h : Reachable first x) {b : Block} {left : List ValidatorId}
    (hstage : x.stage = .opening b left) :
    ∃ y, Reachable first y ∧ x.Goes (left.foldl (fun c v => c.startRunOf v x.cluster.pool.view)
      x.cluster.committee) y ∧ y.stage = .opening b [] := by
  induction left generalizing x with
  | nil => exact ⟨x, h, .rfl, hstage⟩
  | cons v rest ih =>
      obtain ⟨y, hy, hgoes, hopen⟩ := ih (h.step (.begin hstage)) rfl
      exact ⟨y, hy, ⟨hgoes.cluster, hgoes.proposed, hgoes.successes⟩, hopen⟩

-- The end of a wait, as a round has it.
theorem finish (h : Reachable first x) {b : Block} (hstage : x.stage = .waiting b)
    {result : Except ClusterError RoundOutcome} {c : Cluster σ}
    (hend : (match x.cluster.outcome b with
      | .error e => (.error e, x.cluster)
      | .ok votes => x.cluster.conclude b votes) = (result, c))
    (hcause : ∀ cause, result ≠ .error (.overflow cause)) :
    ∃ y, Reachable first y ∧ y.stage = .idle ∧ y.cluster = c ∧ y.proposed = x.proposed ∧
      y.successes = x.successes ++ succeeded b result := by
  cases houtcome : x.cluster.outcome b with
  | error e =>
      rw [houtcome] at hend
      obtain ⟨rfl, rfl⟩ := Prod.mk.inj hend
      exact ⟨_, h.step (.fail hstage houtcome), rfl, rfl, rfl, (List.append_nil _).symm⟩
  | ok votes =>
      rw [houtcome] at hend
      cases result with
      | error e =>
          obtain ⟨cause, rfl⟩ := Cluster.conclude_fst (congrArg Prod.fst hend)
          exact absurd rfl (hcause cause)
      | ok o => exact ⟨_, h.step (.succeed hstage houtcome hend), rfl, rfl, rfl, rfl⟩

-- A proposal, the wait for it, and what comes of them.
theorem runOpened (h : Reachable first x) {b : Block} (hstage : x.stage = .opening b [])
    {c c' : Cluster σ} {before after : Schedule} {result : Except ClusterError RoundOutcome}
    (hsettled : x.cluster = { c with
      committee := (c.committee.follow Committee.isQuiet before).startRun c.pool.view })
    (hround : c.runRound b before after = (result, c'))
    (hcause : ∀ cause, result ≠ .error (.overflow cause)) :
    ∃ y, Reachable first y ∧ y.stage = .idle ∧ y.cluster = c' ∧ y.proposed = x.proposed ∧
      y.successes = x.successes ++ succeeded b result := by
  have hpropose : x.cluster.committee.propose x.cluster.settings.leader b =
      ((c.committee.follow Committee.isQuiet before).startRun c.pool.view).propose
        c.settings.leader b := by
    rw [hsettled]
  unfold Cluster.runRound at hround
  rcases hresult : ((c.committee.follow Committee.isQuiet before).startRun c.pool.view).propose
    c.settings.leader b with ⟨e | u, committee⟩
  · simp only [hresult] at hround
    obtain ⟨rfl, rfl⟩ := Prod.mk.inj hround
    refine ⟨_, h.step (.refuse hstage (hpropose.trans hresult)), rfl, ?_, rfl,
      (List.append_nil _).symm⟩
    simp only [goOn, hsettled]
  · simp only [hresult] at hround
    obtain ⟨y, hy, hgoes, hwaits⟩ := (h.step (.propose hstage (hpropose.trans hresult))).follow
      Committee.isFinished after
    have hcluster : y.cluster =
        { c with committee := committee.follow Committee.isFinished after } := by
      rw [hgoes.cluster]
      simp only [goOn, hsettled]
    rw [← hcluster] at hround
    obtain ⟨z, hz, hidle, hlast, hproposed, hsuccesses⟩ := hy.finish hwaits hround hcause
    refine ⟨z, hz, hidle, hlast, hproposed.trans hgoes.proposed, ?_⟩
    rw [hsuccesses, hgoes.successes]
    rfl

-- A call for the next block is a row of steps, unless it stops for want of a next height.
theorem runNext (h : Reachable first x) (hidle : x.stage = .idle) {before after : Schedule}
    (hcause : ∀ cause, (x.cluster.runNext before after).1 ≠ .error (.overflow cause)) :
    ∃ y, Reachable first y ∧ y.stage = .idle ∧ y.cluster = (x.cluster.runNext before after).2 ∧
      y.proposed = x.proposed ++ [x.cluster.nextBlock.1] ∧
      y.successes = x.successes ++
        succeeded x.cluster.nextBlock.1 (x.cluster.runNext before after).1 := by
  obtain ⟨y, hy, hgoes, hstage⟩ := (h.step (.choose hidle)).follow Committee.isQuiet before
  obtain ⟨z, hz, hgoes', hopen⟩ := hy.beginAll hstage
  have hmembers : ∀ r ∈ y.cluster.committee.replicas, r.id ∈ x.cluster.committee.members := by
    intro r hr
    rw [hgoes.committee] at hr
    have hsame := Committee.members_follow x.cluster.committee Committee.isQuiet before
    rw [← hsame]
    exact List.mem_map_of_mem hr
  rw [Committee.foldl_startRunOf hmembers] at hgoes'
  have hsettled : z.cluster = { x.cluster.nextBlock.2 with
      committee := (x.cluster.nextBlock.2.committee.follow Committee.isQuiet before).startRun
        x.cluster.nextBlock.2.pool.view } := by
    rw [hgoes'.cluster, hgoes.cluster]
    rfl
  obtain ⟨w, hw, hdone, hcluster, hproposed, hsuccesses⟩ := hz.runOpened hopen hsettled rfl hcause
  refine ⟨w, hw, hdone, hcluster, ?_, ?_⟩
  · rw [hproposed, hgoes'.proposed, hgoes.proposed]
    rfl
  · rw [hsuccesses, hgoes'.successes, hgoes.successes]
    rfl

theorem answers (h : Reachable first x) (hidle : x.stage = .idle) {requests : List Cluster.Request}
    (hcause : ∀ r ∈ x.cluster.rounds requests, ∀ cause, r.2 ≠ .error (.overflow cause)) :
    ∃ y, Reachable first y ∧ y.stage = .idle ∧
      y.cluster = requests.foldl Cluster.answer x.cluster ∧
      y.proposed = x.proposed ++ (x.cluster.rounds requests).map (·.1) ∧
      y.successes = x.successes ++
        (x.cluster.rounds requests).flatMap fun r => succeeded r.1 r.2 := by
  induction requests generalizing x with
  | nil => exact ⟨x, h, hidle, rfl, (List.append_nil _).symm, (List.append_nil _).symm⟩
  | cons request rest ih =>
      cases request with
      | submit t => exact ih (h.step (.submit t hidle)) hidle hcause
      | next before after =>
          obtain ⟨hround, hrest⟩ := List.forall_mem_cons.mp hcause
          obtain ⟨y, hy, hstage, hcluster, hproposed, hsuccesses⟩ := h.runNext hidle hround
          rw [← hcluster] at hrest
          obtain ⟨z, hz, hlast, hcluster', hproposed', hsuccesses'⟩ := ih hy hstage hrest
          rw [hcluster] at hcluster' hproposed' hsuccesses'
          refine ⟨z, hz, hlast, hcluster', ?_, ?_⟩
          · rw [hproposed', hproposed, Cluster.rounds, List.map_cons, List.append_assoc,
              List.singleton_append]
          · rw [hsuccesses', hsuccesses, Cluster.rounds, List.flatMap_cons, List.append_assoc]

end Reachable

end Chronicle

end QuorumLedger
