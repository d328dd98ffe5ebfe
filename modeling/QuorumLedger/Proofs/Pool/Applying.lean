import QuorumLedger.Pool
import QuorumLedger.Proofs.Ledger.BlockCheck
import QuorumLedger.Proofs.Ledger.Value

namespace QuorumLedger.Pool

theorem get?_spend (inputs : List OutputRef) (u : UnspentSet) (r : OutputRef) :
    (spend inputs u).2.get? r = if r ∈ inputs then none else u.get? r := by
  induction inputs generalizing u with
  | nil => simp [spend]
  | cons s rest ih =>
      simp only [spend, ih, UnspentSet.get?_erase, List.mem_cons]
      by_cases hrest : r ∈ rest
      · simp [hrest]
      · by_cases hs : s = r
        · simp [hs]
        · have hs' : r ≠ s := fun he => hs he.symm
          simp [hrest, hs, hs']

theorem total_spend {inputs : List OutputRef} (hnodup : inputs.Nodup) (u : UnspentSet) :
    (spend inputs u).2.total + (inputs.map u.valueAt).sum = u.total := by
  induction inputs generalizing u with
  | nil => simp [spend]
  | cons r rest ih =>
      obtain ⟨hr, hrest⟩ := List.nodup_cons.mp hnodup
      have hvalues : rest.map (u.erase r).valueAt = rest.map u.valueAt := by
        refine List.map_congr_left fun s hs => ?_
        have hne : r ≠ s := fun he => hr (he ▸ hs)
        simp [UnspentSet.valueAt, hne]
      have hspent := ih hrest (u.erase r)
      have herase := u.total_erase r
      rw [hvalues] at hspent
      simp only [spend, List.map_cons, List.sum_cons]
      omega

-- What is live stays as it is.
theorem get?_addOutputs_of_live {u : UnspentSet} {r : OutputRef} {o : Output}
    (h : u.get? r = some o) (id : TxId) (i : Nat) (outputs : List Output) :
    (addOutputs id i outputs u).get? r = some o := by
  induction outputs generalizing i u with
  | nil => exact h
  | cons o' rest ih =>
      apply ih
      split
      · exact h
      · rename_i hfree
        have hne : (⟨id, UInt32.ofNat i⟩ : OutputRef) ≠ r := by
          intro he
          exact hfree (UnspentSet.contains_iff.mpr ⟨o, he ▸ h⟩)
        rw [UnspentSet.get?_insert, if_neg hne]
        exact h

-- Only references to the transaction itself come up.
theorem get?_addOutputs_of_ne {r : OutputRef} {id : TxId} (h : r.tx ≠ id) (u : UnspentSet) (i : Nat)
    (outputs : List Output) : (addOutputs id i outputs u).get? r = u.get? r := by
  induction outputs generalizing i u with
  | nil => rfl
  | cons o rest ih =>
      have hne : (⟨id, UInt32.ofNat i⟩ : OutputRef) ≠ r := fun he => h (he ▸ rfl)
      rw [addOutputs, ih]
      split
      · rfl
      · rw [UnspentSet.get?_insert, if_neg hne]

-- The value of the outputs that are not added since their reference is live.
def leftOut (id : TxId) : (i : Nat) → List Output → UnspentSet → Nat
  | _, [], _ => 0
  | i, o :: rest, u =>
    let r : OutputRef := ⟨id, UInt32.ofNat i⟩
    if u.contains r then o.value.toNat + leftOut id (i + 1) rest u
    else leftOut id (i + 1) rest (u.insert r o)

theorem total_addOutputs (id : TxId) (i : Nat) (outputs : List Output) (u : UnspentSet) :
    (addOutputs id i outputs u).total + leftOut id i outputs u = u.total + valueOf outputs := by
  induction outputs generalizing i u with
  | nil => rfl
  | cons o rest ih =>
      have hvalue : valueOf (o :: rest) = o.value.toNat + valueOf rest := by simp [valueOf]
      rw [hvalue]
      by_cases hlive : u.contains ⟨id, UInt32.ofNat i⟩
      · have hrest := ih (i + 1) u
        simp only [addOutputs, leftOut, hlive, if_true]
        omega
      · have hfree := UnspentSet.contains_eq_false_iff.mp (Bool.eq_false_iff.mpr hlive)
        have hinsert := UnspentSet.total_insert hfree o
        have hrest := ih (i + 1) (u.insert ⟨id, UInt32.ofNat i⟩ o)
        simp only [addOutputs, leftOut, hlive, if_false, Bool.false_eq_true]
        omega

theorem leftOut_eq_zero {id : TxId} {i : Nat} {outputs : List Output} {u : UnspentSet}
    (hfits : i + outputs.length ≤ UInt32.size)
    (hfree : ∀ k, i ≤ k → k < UInt32.size → u.get? ⟨id, UInt32.ofNat k⟩ = none) :
    leftOut id i outputs u = 0 := by
  induction outputs generalizing i u with
  | nil => rfl
  | cons o rest ih =>
      rw [List.length_cons] at hfits
      have hi : i < UInt32.size := by omega
      have hnone := UnspentSet.contains_eq_false_iff.mpr (hfree i (Nat.le_refl i) hi)
      simp only [leftOut, hnone, Bool.false_eq_true, if_false]
      refine ih (by omega) fun k hk hlt => ?_
      have hne : (⟨id, UInt32.ofNat i⟩ : OutputRef) ≠ ⟨id, UInt32.ofNat k⟩ := by
        intro he
        have hnat := congrArg (fun r => r.index.toNat) he
        simp only [UInt32.toNat_ofNat_of_lt' hi, UInt32.toNat_ofNat_of_lt' hlt] at hnat
        omega
      rw [UnspentSet.get?_insert, if_neg hne]
      exact hfree k (by omega) hlt

-- The unspent outputs after one transaction.
def applied (t : Transaction) (u : UnspentSet) : UnspentSet :=
  addOutputs t.id 0 t.outputs (spend t.inputs u).2

theorem applyTransactions_cons (t : Transaction) (rest : List Transaction) (u : UnspentSet) :
    (applyTransactions (t :: rest) u).2 = (applyTransactions rest (applied t u)).2 :=
  rfl

-- What a transaction does not spend stays live.
theorem get?_applied_of_live {u : UnspentSet} {r : OutputRef} {o : Output} {t : Transaction}
    (h : u.get? r = some o) (hr : r ∉ t.inputs) : (applied t u).get? r = some o := by
  refine get?_addOutputs_of_live ?_ t.id 0 t.outputs
  rw [get?_spend, if_neg hr]
  exact h

theorem get?_applied_of_ne {r : OutputRef} {t : Transaction} (h : r.tx ≠ t.id) (u : UnspentSet) :
    (applied t u).get? r = if r ∈ t.inputs then none else u.get? r := by
  rw [applied, get?_addOutputs_of_ne h, get?_spend]

-- Where no transaction is numbered like it, a reference is gone exactly if it was spent or is gone.
theorem get?_applyTransactions_of_ne {r : OutputRef} {transactions : List Transaction}
    (hne : ∀ t ∈ transactions, r.tx ≠ t.id) (u : UnspentSet) :
    (applyTransactions transactions u).2.get? r =
      if r ∈ inputsOf transactions then none else u.get? r := by
  induction transactions generalizing u with
  | nil => rfl
  | cons t rest ih =>
      obtain ⟨ht, hrest⟩ := List.forall_mem_cons.mp hne
      have hsplit : inputsOf (t :: rest) = t.inputs ++ inputsOf rest := List.flatMap_cons
      rw [applyTransactions_cons, ih hrest, get?_applied_of_ne ht, hsplit]
      by_cases hnow : r ∈ t.inputs <;> by_cases hlater : r ∈ inputsOf rest <;> simp [hnow, hlater]

-- What is live afterwards was live before or has the number of a transaction.
theorem contains_of_applyTransactions {r : OutputRef} {transactions : List Transaction}
    {u : UnspentSet} (h : (applyTransactions transactions u).2.contains r = true) :
    (∃ t ∈ transactions, t.id = r.tx) ∨ u.contains r = true := by
  by_cases hown : ∃ t ∈ transactions, t.id = r.tx
  · exact .inl hown
  · have hsame := get?_applyTransactions_of_ne (fun t ht he => hown ⟨t, ht, he.symm⟩) u
    rw [UnspentSet.contains, hsame] at h
    split at h
    · cases h
    · exact .inr h

-- No transaction is numbered like something that it or an earlier one spends.
structure Ordered (transactions : List Transaction) : Prop where
  own : ∀ t ∈ transactions, ∀ r ∈ t.inputs, r.tx ≠ t.id
  earlier : transactions.Pairwise fun s t => ∀ r ∈ s.inputs, r.tx ≠ t.id

theorem Ordered.sublist {xs ys : List Transaction} (h : Ordered ys) (hsub : xs.Sublist ys) :
    Ordered xs :=
  ⟨fun t ht => h.own t (hsub.subset ht), h.earlier.sublist hsub⟩

-- What is spent does not come back under the same reference.
theorem Ordered.get?_applyTransactions {transactions : List Transaction} (h : Ordered transactions)
    {u : UnspentSet} {r : OutputRef} {o : Output} (hlive : u.get? r = some o)
    (hstill : (applyTransactions transactions u).2.contains r = true) :
    (applyTransactions transactions u).2.get? r = some o := by
  induction transactions generalizing u with
  | nil => exact hlive
  | cons t rest ih =>
      obtain ⟨hearlier, hrest⟩ := List.pairwise_cons.mp h.earlier
      have htail : Ordered rest := ⟨fun s hs => h.own s (List.mem_cons_of_mem t hs), hrest⟩
      rw [applyTransactions_cons] at hstill ⊢
      by_cases hr : r ∈ t.inputs
      · -- spent here, and no transaction from here on has its number
        have hown := h.own t List.mem_cons_self r hr
        have hdead : (applied t u).get? r = none := by rw [get?_applied_of_ne hown, if_pos hr]
        rw [UnspentSet.contains, get?_applyTransactions_of_ne fun s hs => hearlier s hs r hr, hdead,
          ite_self] at hstill
        cases hstill
      · exact ih htail (get?_applied_of_live hlive hr) hstill

-- The value of all outputs that an application leaves out.
def leftOutOf : List Transaction → UnspentSet → Nat
  | [], _ => 0
  | t :: rest, u => leftOut t.id 0 t.outputs (spend t.inputs u).2 + leftOutOf rest (applied t u)

theorem total_applied {t : Transaction} (hnodup : t.inputs.Nodup) (u : UnspentSet) :
    (applied t u).total + leftOut t.id 0 t.outputs (spend t.inputs u).2 +
        (t.inputs.map u.valueAt).sum =
      u.total + valueOf t.outputs := by
  have hspend := total_spend hnodup u
  have hadd := total_addOutputs t.id 0 t.outputs (spend t.inputs u).2
  unfold applied
  omega

-- Inputs that are live and distinct are found with the value that they have at the start.
theorem total_applyTransactions {transactions : List Transaction} {u : UnspentSet}
    (hlive : ∀ r ∈ inputsOf transactions, u.contains r = true)
    (hnodup : (inputsOf transactions).Nodup) :
    (applyTransactions transactions u).2.total + leftOutOf transactions u +
        ((inputsOf transactions).map u.valueAt).sum =
      u.total + (transactions.map fun t => valueOf t.outputs).sum := by
  induction transactions generalizing u with
  | nil => rfl
  | cons t rest ih =>
      have hsplit : inputsOf (t :: rest) = t.inputs ++ inputsOf rest := List.flatMap_cons
      rw [hsplit] at hlive hnodup ⊢
      obtain ⟨hown, hrest, hapart⟩ := List.nodup_append'.mp hnodup
      have hkept : ∀ r ∈ inputsOf rest, (applied t u).get? r = u.get? r := by
        intro r hr
        obtain ⟨o, ho⟩ := UnspentSet.contains_iff.mp (hlive r (List.mem_append_right _ hr))
        rw [get?_applied_of_live ho fun ht => hapart ht hr, ho]
      have hvalues : (inputsOf rest).map (applied t u).valueAt = (inputsOf rest).map u.valueAt :=
        List.map_congr_left fun r hr => by simp only [UnspentSet.valueAt, hkept r hr]
      have hlater := ih (u := applied t u) (fun r hr => by
        rw [UnspentSet.contains, hkept r hr]
        exact hlive r (List.mem_append_right _ hr)) hrest
      have hnow := total_applied hown u
      rw [hvalues] at hlater
      rw [applyTransactions_cons, leftOutOf, List.map_append, List.sum_append, List.map_cons,
        List.sum_cons]
      omega

-- Transactions with neither inputs nor outputs change nothing.
theorem applyTransactions_of_empty {transactions : List Transaction}
    (h : ∀ t ∈ transactions, t.inputs = [] ∧ t.outputs = []) (u : UnspentSet) :
    (applyTransactions transactions u).2 = u ∧ leftOutOf transactions u = 0 := by
  induction transactions with
  | nil => exact ⟨rfl, rfl⟩
  | cons t rest ih =>
      obtain ⟨⟨hin, hout⟩, hrest⟩ := List.forall_mem_cons.mp h
      have ht : applied t u = u := by simp only [applied, hin, hout, spend, addOutputs]
      rw [applyTransactions_cons, leftOutOf, ht, hout]
      exact ⟨(ih hrest).1, by rw [(ih hrest).2, leftOut]⟩

-- References that no entry has are all free, also after other transactions.
theorem leftOutOf_eq_zero {transactions : List Transaction} {u : UnspentSet}
    (hfits : ∀ t ∈ transactions, t.outputs.length ≤ UInt32.size)
    (hfresh : ∀ t ∈ transactions, ∀ r, r.tx = t.id → u.get? r = none)
    (hnodup : (transactions.map (·.id)).Nodup) : leftOutOf transactions u = 0 := by
  induction transactions generalizing u with
  | nil => rfl
  | cons t rest ih =>
      obtain ⟨hfit, hfits⟩ := List.forall_mem_cons.mp hfits
      obtain ⟨hown, hothers⟩ := List.forall_mem_cons.mp hfresh
      obtain ⟨hnew, hrest⟩ := List.nodup_cons.mp hnodup
      have hnow : leftOut t.id 0 t.outputs (spend t.inputs u).2 = 0 := by
        refine leftOut_eq_zero (by omega) fun k _ _ => ?_
        rw [get?_spend, hown _ rfl]
        simp
      have hlater : leftOutOf rest (applied t u) = 0 := by
        refine ih hfits (fun s hs r hr => ?_) hrest
        have hne : r.tx ≠ t.id := fun he => hnew (List.mem_map.mpr ⟨s, hs, hr.symm.trans he⟩)
        rw [get?_applied_of_ne hne, hothers s hs r hr]
        simp
      rw [leftOutOf, hnow, hlater]

end QuorumLedger.Pool
