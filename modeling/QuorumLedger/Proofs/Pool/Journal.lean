import QuorumLedger.Proofs.OneTime.Trust
import QuorumLedger.Proofs.Pool.Applying
import QuorumLedger.Proofs.Pool.Building

namespace QuorumLedger

namespace Transaction

-- What the check of the sender's signature looks at.
def signed? (t : Transaction) : Option (Signed WalletId) :=
  t.signature.map fun signature => ⟨t.sender, t.signingDigest.toList, signature, t.nextKey⟩

theorem checkSignature_eq (t : Transaction) (chain : KeyChain WalletId) :
    t.checkSignature chain = (t.signed?.map chain.outcome, t.signed?.toList.foldl .next chain) := by
  unfold checkSignature signed?
  cases t.signature with
  | none => rfl
  | some signature =>
      simp only [KeyChain.outcome, KeyChain.next, KeyChain.checkAndAdvance, Option.map_some,
        Option.toList_some, List.foldl_cons, List.foldl_nil]

end Transaction

namespace Pool

def IsFull (p : Pool) : Prop :=
  p.limits.maxPending.toNat ≤ p.pending.length

instance (p : Pool) : Decidable p.IsFull :=
  inferInstanceAs (Decidable (_ ≤ _))

-- The signature that a submission has checked, if it gets that far.
def looksAt (p : Pool) (t : Transaction) : List (Signed WalletId) :=
  if p.IsFull then [] else t.signed?.toList

-- All that a submission can do: the sender's key chain moves on if a signature is looked at, and
-- the transaction is queued if everything asked of it holds.
theorem submit_cases (p : Pool) (t : Transaction) :
    (∃ e, p.submit t =
        (.error e, { p with walletKeys := (p.looksAt t).foldl .next p.walletKeys })) ∨
      ((∃ s, p.looksAt t = [s] ∧ t.signed? = some s ∧
          (p.walletKeys.outcome s).isAccepted = true) ∧
        p.admit? t = .ok () ∧
        p.submit t = (.ok (), { p with
          walletKeys := (p.looksAt t).foldl .next p.walletKeys
          pending := p.pending ++ [t] })) := by
  unfold submit looksAt
  by_cases hfull : p.IsFull
  · exact .inl ⟨.full p.pending.length, by simp [hfull, show p.limits.maxPending.toNat ≤ _ from hfull]⟩
  · have hroom : ¬ p.limits.maxPending.toNat ≤ p.pending.length := hfull
    simp only [hroom, if_false, hfull, t.checkSignature_eq]
    cases hsigned : t.signed? with
    | none => exact .inl ⟨.unsigned t.id, rfl⟩
    | some s =>
        cases haccepted : (p.walletKeys.outcome s).isAccepted with
        | false => exact .inl ⟨.badSignature t.id t.sender, by simp [haccepted]⟩
        | true =>
            have hadmit : { p with walletKeys := p.walletKeys.next s }.admit? t = p.admit? t := rfl
            cases hcheck : p.admit? t with
            | error e => exact .inl ⟨e, by simp [haccepted, hadmit, hcheck]⟩
            | ok _ => exact .inr ⟨⟨s, rfl, rfl, haccepted⟩, rfl, by simp [haccepted, hadmit, hcheck]⟩

theorem foreignInput_eq_none_iff {p : Pool} {t : Transaction} :
    p.foreignInput t = none ↔
      ∀ r ∈ t.inputs, ∀ o, p.unspent.get? r = some o → o.receiver = t.sender := by
  simp only [foreignInput, List.find?_eq_none]
  refine forall₂_congr fun r _ => ?_
  cases p.unspent.get? r <;> simp

theorem idInUse_eq_false_iff {p : Pool} {id : TxId} :
    p.idInUse id = false ↔
      (∀ t ∈ p.pending, t.id ≠ id) ∧ ∀ r, p.unspent.contains r = true → r.tx ≠ id := by
  simp only [idInUse, Bool.or_eq_false_iff, List.any_eq_false, decide_eq_true_eq]
  refine and_congr_right fun _ => ?_
  constructor
  · intro h r hr
    obtain ⟨o, ho⟩ := UnspentSet.contains_iff.mp hr
    exact h (r, o) (UnspentSet.mem_of_find ho)
  · intro h e he
    exact h e.1 (Option.isSome_iff_ne_none.mpr (UnspentSet.find_ne_none_of_mem he))

theorem admit?_eq_ok_iff {p : Pool} {t : Transaction} :
    p.admit? t = .ok () ↔
      p.foreignInput t = none ∧ p.idInUse t.id = false ∧ t.check p.view = .ok () := by
  unfold admit?
  cases p.foreignInput t with
  | some r => simp
  | none =>
      cases p.idInUse t.id with
      | true => simp
      | false => cases t.check p.view <;> simp

-- Assembly takes a part off the front of the queue and chooses from it, in order.
theorem fill_eq_append (view : LedgerView) (max : Nat) (queue : List Transaction) (d : Draft) :
    ∃ taken chosen, queue = taken ++ (fill view max queue d).2 ∧ chosen.Sublist taken ∧
      (fill view max queue d).1.transactions = d.transactions ++ chosen := by
  obtain ⟨taken, hqueue, hdraft, -⟩ := exists_taken_fill view max queue d
  obtain ⟨chosen, hchosen, hsub⟩ := exists_select_eq_append view d.transactions taken
  exact ⟨taken, chosen, hqueue, hsub, by rw [hdraft, hchosen]⟩

-- All that assembly changes is that the front of the queue goes.
theorem buildBlock_cases (p : Pool) (height : Height) (parent : Digest) :
    ∃ taken left, p.pending = taken ++ left ∧
      (p.buildBlock height parent).2 = { p with pending := left } ∧
      ∀ b, (p.buildBlock height parent).1 = some b → b.transactions.Sublist taken := by
  unfold buildBlock
  by_cases hempty : p.pending.isEmpty
  · exact ⟨[], p.pending, rfl, by simp [hempty], by simp [hempty]⟩
  · obtain ⟨taken, chosen, hqueue, hsub, hchosen⟩ := fill_eq_append p.view
      p.limits.maxBlockTransactions.toNat p.pending (Draft.start height parent)
    refine ⟨taken, _, hqueue, by simp [hempty], fun b hb => ?_⟩
    simp only [hempty, Bool.false_eq_true, if_false, Option.some.injEq] at hb
    subst hb
    have hall : (fill p.view p.limits.maxBlockTransactions.toNat p.pending
        (Draft.start height parent)).1.finalize.transactions = chosen := hchosen
    rw [hall]
    exact hsub

inductive Call where
  | fund (coins : UInt64)
  | submit (t : Transaction)
  | build (height : Height) (parent : Digest)
  | apply (b : Block)

end Pool

-- A pool with what happened to it: the blocks that it built and that were applied, the value of
-- outputs that were left out then, and the signatures that it looked at.
structure Journal where
  pool : Pool
  built : List Block
  applied : List Block
  lost : Nat
  heard : List (Signed WalletId)

namespace Journal

def start (p : Pool) : Journal :=
  ⟨p, [], [], 0, []⟩

-- A new pool whose wallets were funded once.
def opened (limits : PoolLimits) (wallets : List WalletId) (coins : UInt64) : Journal :=
  .start ((Pool.create limits wallets).initializeCoins coins)

def call (j : Journal) : Pool.Call → Journal
  | .fund coins => { j with pool := j.pool.initializeCoins coins }
  | .submit t => { j with pool := (j.pool.submit t).2, heard := j.heard ++ j.pool.looksAt t }
  | .build height parent => { j with
      pool := (j.pool.buildBlock height parent).2
      built := j.built ++ (j.pool.buildBlock height parent).1.toList }
  | .apply b => { j with
      pool := (j.pool.applyBlock b).2
      applied := j.applied ++ [b]
      lost := j.lost + Pool.leftOutOf b.transactions j.pool.unspent }

-- Whether a funded pool is left to itself: no more funding, and no blocks but its own.
def Own (j : Journal) : Pool.Call → Prop
  | .fund _ => False
  | .apply b => b ∈ j.built
  | _ => True

-- Whether a funded pool is left to itself and applies only what passes the check of its own ledger.
def Checked (j : Journal) : Pool.Call → Prop
  | .apply b => b ∈ j.built ∧ b.check j.pool.view = .ok ()
  | c => j.Own c

theorem own_of_checked {j : Journal} {c : Pool.Call} (h : j.Checked c) : j.Own c := by
  cases c with
  | apply b => exact h.1
  | fund coins => exact h
  | submit t => exact h
  | build height parent => exact h

inductive Reachable (rule : Journal → Pool.Call → Prop) (first : Journal) : Journal → Prop
  | start : Reachable rule first first
  | call {j : Journal} {c : Pool.Call} (before : Reachable rule first j) (allowed : rule j c) :
      Reachable rule first (j.call c)

theorem Reachable.mono {rule rule' : Journal → Pool.Call → Prop}
    (hrule : ∀ j c, rule j c → rule' j c) {first j : Journal} (h : Reachable rule first j) :
    Reachable rule' first j := by
  induction h with
  | start => exact .start
  | call before allowed ih => exact .call ih (hrule _ _ allowed)

-- A wallet hands on what it was funded with, always under the number 7.
def handing (sender receiver : WalletId) : Transaction :=
  ⟨⟨7⟩, sender, [⟨⟨sender.value⟩, 0⟩], [⟨100, receiver⟩], none,
    some ⟨Vector.replicate keyBits .zero⟩⟩

def handingBlock (sender receiver : WalletId) : Block :=
  Draft.finalize ⟨⟨1⟩, .zero, [handing sender receiver]⟩

theorem check_handingBlock {view : LedgerView} {sender receiver : WalletId}
    (hpass : (handing sender receiver).check view = .ok ()) :
    (handingBlock sender receiver).check view = .ok () := by
  have hconsistent : Draft.Consistent view ⟨⟨1⟩, .zero, [handing sender receiver]⟩ :=
    ⟨fun t ht => List.mem_singleton.mp ht ▸ hpass, List.pairwise_singleton _ _⟩
  refine hconsistent.check_finalize_eq_ok_iff.mpr fun t ht => ?_
  rw [List.mem_singleton.mp ht]
  exact List.nodup_singleton _

-- The block of wallet 0 is built and not yet applied when its number comes a second time.
def overlapping : Journal :=
  (((opened {} [⟨0⟩, ⟨1⟩] 100).call (.submit (handing ⟨0⟩ ⟨1⟩))).call (.build ⟨1⟩ .zero)).call
    (.submit (handing ⟨1⟩ ⟨0⟩))

theorem reachable_overlapping : Reachable Checked (opened {} [⟨0⟩, ⟨1⟩] 100) overlapping :=
  .call (.call (.call .start trivial) trivial) trivial

theorem checked_overlapping : overlapping.Checked (.apply (handingBlock ⟨0⟩ ⟨1⟩)) :=
  ⟨List.mem_cons_self, check_handingBlock rfl⟩

end Journal

end QuorumLedger
