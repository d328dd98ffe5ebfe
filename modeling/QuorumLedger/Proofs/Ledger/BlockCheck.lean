import Mathlib.Data.List.Nodup
import Mathlib.Data.List.Perm.Subperm
import QuorumLedger.Ledger.Block

namespace QuorumLedger

-- No list without repeats is longer than there are numbers for its elements.
theorem length_le_of_nodup {α : Type} {rank : α → Nat} (hrank : Function.Injective rank)
    {limit : Nat} (hlimit : ∀ a, rank a < limit) {xs : List α} (h : xs.Nodup) :
    xs.length ≤ limit := by
  have hrange : xs.map rank ⊆ List.range limit := fun n hn => by
    obtain ⟨a, -, rfl⟩ := List.mem_map.mp hn
    exact List.mem_range.mpr (hlimit a)
  have hlength := (List.subperm_of_subset (h.map hrank) hrange).length_le
  rwa [List.length_map, List.length_range] at hlength

theorem firstRepeat_eq_none_iff {α : Type} [DecidableEq α] {seen xs : List α} :
    firstRepeat seen xs = none ↔ xs.Nodup ∧ ∀ x ∈ xs, x ∉ seen := by
  induction xs generalizing seen with
  | nil => simp [firstRepeat]
  | cons x rest ih =>
      by_cases hx : x ∈ seen
      · simp [firstRepeat, hx]
      · simp only [firstRepeat, hx, if_false, ih, List.nodup_cons, List.forall_mem_cons]
        constructor
        · rintro ⟨hnodup, hnew⟩
          have hrest : x ∉ rest := fun hm => hnew x hm List.mem_cons_self
          have hseen : ∀ y ∈ rest, y ∉ seen := fun y hy hs => hnew y hy (List.mem_cons_of_mem _ hs)
          exact ⟨⟨hrest, hnodup⟩, not_false, hseen⟩
        · rintro ⟨⟨hrest, hnodup⟩, -, hseen⟩
          refine ⟨hnodup, fun y hy hm => ?_⟩
          rcases List.mem_cons.mp hm with he | hs
          · exact hrest (he ▸ hy)
          · exact hseen y hy hs

theorem firstRepeat_eq_some {α : Type} [DecidableEq α] {seen xs : List α} {x : α}
    (h : firstRepeat seen xs = some x) : x ∈ xs ∧ (x ∈ seen ∨ 2 ≤ xs.count x) := by
  induction xs generalizing seen with
  | nil => simp [firstRepeat] at h
  | cons y rest ih =>
      by_cases hy : y ∈ seen
      · simp only [firstRepeat, hy, if_true, Option.some.injEq] at h
        subst h
        exact ⟨List.mem_cons_self, .inl hy⟩
      · simp only [firstRepeat, hy, if_false] at h
        obtain ⟨hmem, hcases⟩ := ih h
        have hpos := List.count_pos_iff.mpr hmem
        refine ⟨List.mem_cons_of_mem _ hmem, ?_⟩
        rcases hcases with hseen | htwice
        · rcases List.mem_cons.mp hseen with he | hs
          · subst he
            exact .inr (by rw [List.count_cons_self]; omega)
          · exact .inl hs
        · exact .inr (Nat.le_trans htwice List.count_le_count_cons)

theorem mem_inputsOf {transactions : List Transaction} {r : OutputRef} :
    r ∈ inputsOf transactions ↔ ∃ t ∈ transactions, r ∈ t.inputs :=
  List.mem_flatMap

-- Over a whole list an input repeats within a transaction or between two of them.
theorem nodup_inputsOf_iff {transactions : List Transaction} :
    (inputsOf transactions).Nodup ↔
      (∀ t ∈ transactions, t.inputs.Nodup) ∧
        transactions.Pairwise fun s t => s.inputs.Disjoint t.inputs :=
  List.nodup_flatMap

-- A repeat in the list of all inputs lies within one transaction if two of them share nothing.
theorem exists_two_le_count {transactions : List Transaction} {r : OutputRef}
    (hdisjoint : transactions.Pairwise fun s t => s.inputs.Disjoint t.inputs)
    (hr : 2 ≤ (inputsOf transactions).count r) : ∃ t ∈ transactions, 2 ≤ t.inputs.count r := by
  induction transactions with
  | nil => simp [inputsOf] at hr
  | cons t rest ih =>
      obtain ⟨hhead, htail⟩ := List.pairwise_cons.mp hdisjoint
      have hsplit : (inputsOf (t :: rest)).count r =
          t.inputs.count r + (inputsOf rest).count r := by
        simp [inputsOf]
      by_cases ht : r ∈ t.inputs
      · have hrest : r ∉ inputsOf rest := by
          intro hm
          obtain ⟨s, hs, hrs⟩ := mem_inputsOf.mp hm
          exact hhead s hs ht hrs
        have hzero := List.count_eq_zero_of_not_mem hrest
        exact ⟨t, List.mem_cons_self, by omega⟩
      · have hzero := List.count_eq_zero_of_not_mem ht
        obtain ⟨s, hs, hcount⟩ := ih htail (by omega)
        exact ⟨s, List.mem_cons_of_mem _ hs, hcount⟩

namespace Block

theorem checkTransactions_eq_ok_iff {view : LedgerView} {transactions : List Transaction} :
    checkTransactions view transactions = .ok () ↔ ∀ t ∈ transactions, t.check view = .ok () := by
  induction transactions with
  | nil => simp [checkTransactions]
  | cons t rest ih =>
      cases ht : t.check view with
      | error e => simp [checkTransactions, ht]
      | ok _ => simp [checkTransactions, ht, ih]

theorem check_eq_ok_iff {b : Block} {view : LedgerView} :
    b.check view = .ok () ↔
      Header.rootOf b.transactions = b.header.root ∧
        (∀ t ∈ b.transactions, t.check view = .ok ()) ∧ b.spent.Nodup := by
  have hrepeat : firstRepeat [] b.spent = none ↔ b.spent.Nodup := by
    simp [firstRepeat_eq_none_iff]
  rw [← checkTransactions_eq_ok_iff, ← hrepeat]
  by_cases hroot : Header.rootOf b.transactions = b.header.root
  · cases hall : checkTransactions view b.transactions with
    | error e => simp [check, hroot, hall]
    | ok _ => cases hfirst : firstRepeat [] b.spent <;> simp [check, hroot, hall, hfirst]
  · simp [check, hroot]

end Block

end QuorumLedger
