import Mathlib.Data.List.Induction
import QuorumLedger.Pool
import QuorumLedger.Proofs.Ledger.BlockCheck

namespace QuorumLedger

namespace Draft

theorem conflict_eq_none_iff {d : Draft} {t : Transaction} :
    d.conflict t = none ↔ ∀ s ∈ d.transactions, s.inputs.Disjoint t.inputs := by
  simp only [conflict, List.find?_eq_none, decide_eq_true_eq, mem_inputsOf, not_exists, not_and]
  constructor
  · intro h s hs r hr ht
    exact h r ht s hs hr
  · intro h r ht s hs hr
    exact h s hs hr ht

end Draft

namespace Transaction

theorem maySpend_iff {t : Transaction} {view : LedgerView} :
    t.maySpend view = true ↔ t.check view = .ok () := by
  cases h : t.check view <;> simp [maySpend, h, Except.isOk, Except.toBool]

-- Whether a transaction may join those that were chosen before it.
def Joins (t : Transaction) (view : LedgerView) (chosen : List Transaction) : Prop :=
  t.check view = .ok () ∧ ∀ s ∈ chosen, s.inputs.Disjoint t.inputs

instance (t : Transaction) (view : LedgerView) (chosen : List Transaction) :
    Decidable (t.Joins view chosen) :=
  inferInstanceAs (Decidable (t.check view = .ok () ∧ ∀ s ∈ chosen, ∀ r ∈ s.inputs, r ∉ t.inputs))

end Transaction

namespace Pool

-- The transactions chosen so far, with those that a queue adds to them.
def select (view : LedgerView) (chosen queue : List Transaction) : List Transaction :=
  queue.foldl (fun chosen t => if t.Joins view chosen then chosen ++ [t] else chosen) chosen

section Select

variable {view : LedgerView} {chosen : List Transaction}

theorem select_cons (t : Transaction) (rest : List Transaction) :
    select view chosen (t :: rest) =
      select view (if t.Joins view chosen then chosen ++ [t] else chosen) rest :=
  rfl

theorem select_append (xs ys : List Transaction) :
    select view chosen (xs ++ ys) = select view (select view chosen xs) ys :=
  List.foldl_append

theorem exists_select_eq_append (view : LedgerView) (chosen queue : List Transaction) :
    ∃ added, select view chosen queue = chosen ++ added ∧ added.Sublist queue := by
  induction queue generalizing chosen with
  | nil => exact ⟨[], (List.append_nil _).symm, .slnil⟩
  | cons t rest ih =>
      obtain ⟨added, hadded, hsub⟩ := ih (if t.Joins view chosen then chosen ++ [t] else chosen)
      rw [select_cons, hadded]
      by_cases ht : t.Joins view chosen
      · exact ⟨t :: added, by simp [ht], hsub.cons_cons t⟩
      · exact ⟨added, by simp [ht], hsub.cons t⟩

theorem length_select_le_of_isPrefix {xs ys : List Transaction} (h : xs <+: ys) :
    (select view chosen xs).length ≤ (select view chosen ys).length := by
  obtain ⟨zs, rfl⟩ := h
  obtain ⟨added, hadded, -⟩ := exists_select_eq_append view (select view chosen xs) zs
  rw [select_append, hadded, List.length_append]
  exact Nat.le_add_right _ _

theorem length_select_singleton_le (t : Transaction) :
    (select view chosen [t]).length ≤ chosen.length + 1 := by
  obtain ⟨added, hadded, hsub⟩ := exists_select_eq_append view chosen [t]
  rw [hadded, List.length_append]
  exact Nat.add_le_add_left hsub.length_le _

end Select

theorem fill_cons (view : LedgerView) (max : Nat) (t : Transaction) (rest : List Transaction)
    (d : Draft) :
    fill view max (t :: rest) d =
      if d.transactions.length < max then
        fill view max rest (if t.Joins view d.transactions then d.add t else d)
      else (d, t :: rest) := by
  by_cases hcheck : t.check view = .ok ()
  · have hmay := Transaction.maySpend_iff.mpr hcheck
    cases hconflict : d.conflict t with
    | none =>
        have hjoins : t.Joins view d.transactions :=
          ⟨hcheck, Draft.conflict_eq_none_iff.mp hconflict⟩
        simp only [fill, hmay, Draft.tryAdd, hconflict, hjoins, if_true]
    | some r =>
        have hjoins : ¬ t.Joins view d.transactions := fun h => by
          rw [Draft.conflict_eq_none_iff.mpr h.2] at hconflict
          cases hconflict
        simp only [fill, hmay, Draft.tryAdd, hconflict, hjoins, if_true, if_false]
  · have hmay : ¬ t.maySpend view = true := fun h => hcheck (Transaction.maySpend_iff.mp h)
    have hjoins : ¬ t.Joins view d.transactions := fun h => hcheck h.1
    simp only [fill, hmay, hjoins, if_false, Bool.false_eq_true]

-- What assembly takes off the queue fills the draft at its end and not before.
theorem exists_taken_fill (view : LedgerView) (max : Nat) (queue : List Transaction) (d : Draft) :
    ∃ taken, queue = taken ++ (fill view max queue d).2 ∧
      (fill view max queue d).1 =
        { d with transactions := select view d.transactions taken } ∧
      (∀ front, front <+: taken → front ≠ taken →
        (select view d.transactions front).length < max) ∧
      ((select view d.transactions taken).length < max → (fill view max queue d).2 = []) := by
  induction queue generalizing d with
  | nil =>
      refine ⟨[], rfl, rfl, fun front hfront hne => ?_, fun _ => rfl⟩
      exact absurd (List.prefix_nil.mp hfront) hne
  | cons t rest ih =>
      rw [fill_cons]
      by_cases hroom : d.transactions.length < max
      · rw [if_pos hroom]
        obtain ⟨taken, hqueue, hdraft, hshort, hrest⟩ :=
          ih (if t.Joins view d.transactions then d.add t else d)
        have hchosen : (if t.Joins view d.transactions then d.add t else d).transactions =
            if t.Joins view d.transactions then d.transactions ++ [t] else d.transactions := by
          split <;> rfl
        rw [hchosen] at hdraft hshort hrest
        refine ⟨t :: taken, by rw [List.cons_append, ← hqueue], ?_, ?_, hrest⟩
        · rw [hdraft, select_cons]
          split <;> rfl
        · intro front hfront hne
          cases front with
          | nil => exact hroom
          | cons u front =>
              obtain ⟨rfl, htail⟩ := List.cons_prefix_cons.mp hfront
              exact hshort front htail fun h => hne (congrArg (u :: ·) h)
      · rw [if_neg hroom]
        refine ⟨[], rfl, rfl, fun front hfront hne => ?_, fun hless => absurd hless hroom⟩
        exact absurd (List.prefix_nil.mp hfront) hne

-- The last of those that were taken is the first that may fill the draft.
theorem length_select_taken_le {view : LedgerView} {max : Nat} {taken : List Transaction}
    (hshort : ∀ front, front <+: taken → front ≠ taken → (select view [] front).length < max) :
    (select view [] taken).length ≤ max := by
  induction taken using List.reverseRecOn with
  | nil => exact Nat.zero_le max
  | append_singleton before last =>
      have hbefore := hshort before (List.prefix_append _ _) (by simp)
      rw [select_append]
      exact Nat.le_trans (length_select_singleton_le last) hbefore

-- Room is counted by what was chosen, so refused transactions are taken off the queue for as long
-- as there is room left, and not one more once the block is full.
theorem buildBlock_of_pending {p : Pool} (hpending : p.pending ≠ []) (height : Height)
    (parent : Digest) :
    let max := p.limits.maxBlockTransactions.toNat
    ∃ b taken rest, p.buildBlock height parent = (some b, { p with pending := rest }) ∧
      p.pending = taken ++ rest ∧ b.transactions = select p.view [] taken ∧
      b.transactions.length ≤ max ∧
      (max ≤ (select p.view [] p.pending).length → b.transactions.length = max ∧
        ∀ front, front <+: p.pending → max ≤ (select p.view [] front).length →
          taken.length ≤ front.length) ∧
      ((select p.view [] p.pending).length < max → rest = []) := by
  intro max
  obtain ⟨taken, hqueue, hdraft, hshort, hrest⟩ :=
    exists_taken_fill p.view max p.pending (Draft.start height parent)
  have hempty : p.pending.isEmpty = false := by simpa using hpending
  have hle := length_select_taken_le hshort
  have htaken : (select p.view [] taken).length ≤ (select p.view [] p.pending).length :=
    length_select_le_of_isPrefix ⟨_, hqueue.symm⟩
  have hchosen : (fill p.view max p.pending (Draft.start height parent)).1.finalize.transactions =
      select p.view [] taken := congrArg Draft.transactions hdraft
  refine ⟨_, taken, _, by simp only [buildBlock, hempty]; rfl, hqueue, hchosen, ?_, ?_, ?_⟩
  · rw [hchosen]
    exact hle
  · intro henough
    rw [hchosen]
    refine ⟨Nat.le_antisymm hle (Nat.le_of_not_lt fun hless => ?_), fun front hfront hfull => ?_⟩
    · rw [hrest hless, List.append_nil] at hqueue
      rw [hqueue] at henough
      exact Nat.not_lt_of_le henough hless
    · refine Nat.le_of_not_lt fun hless => ?_
      have hproper : front <+: taken :=
        List.prefix_of_prefix_length_le hfront ⟨_, hqueue.symm⟩ (Nat.le_of_lt hless)
      have hfew := hshort front hproper fun hsame => Nat.ne_of_lt hless (congrArg List.length hsame)
      exact Nat.not_lt_of_le hfull hfew
  · exact fun hfew => hrest (Nat.lt_of_le_of_lt htaken hfew)

-- Pays all that a wallet was funded with to the first wallet.
def emptying (id : UInt32) (wallet : UInt32) : Transaction :=
  ⟨⟨id⟩, ⟨wallet⟩, [⟨⟨wallet⟩, 0⟩], [⟨100, ⟨0⟩⟩], none, none⟩

-- Blocks take two transactions. The second in the queue spends what the first does.
def crowded : Pool :=
  { (create { maxBlockTransactions := 2 } [⟨0⟩, ⟨1⟩, ⟨2⟩]).initializeCoins 100 with
    pending := [emptying 7 0, emptying 8 0, emptying 9 1, emptying 10 2] }

example : select crowded.view [] crowded.pending = [emptying 7 0, emptying 9 1, emptying 10 2] := by
  decide

theorem buildBlock_of_pending_crowded :
    crowded.pending ≠ [] ∧ ∃ b taken rest,
      crowded.buildBlock ⟨1⟩ .zero = (some b, { crowded with pending := rest }) ∧
        crowded.pending = taken ++ rest ∧ b.transactions.length = 2 ∧ taken.length ≤ 3 := by
  have hpending : crowded.pending ≠ [] := by decide
  obtain ⟨b, taken, rest, hbuilt, hqueue, -, -, hfull, -⟩ :=
    buildBlock_of_pending hpending ⟨1⟩ .zero
  obtain ⟨htwo, hshort⟩ := hfull (by decide)
  exact ⟨hpending, b, taken, rest, hbuilt, hqueue, htwo,
    hshort (crowded.pending.take 3) (List.take_prefix 3 _) (by decide)⟩

end Pool

end QuorumLedger
