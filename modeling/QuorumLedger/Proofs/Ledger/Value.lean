import Mathlib.Algebra.BigOperators.Group.List.Basic
import Mathlib.Algebra.GroupWithZero.Nat
import QuorumLedger.Ledger.Transaction

namespace QuorumLedger

namespace UnspentSet

def total (u : UnspentSet) : Nat :=
  (u.entries.map fun e => e.2.value.toNat).sum

-- What an output holds, nothing if it is not live.
def valueAt (u : UnspentSet) (r : OutputRef) : Nat :=
  ((u.get? r).map fun o => o.value.toNat).getD 0

theorem valueAt_of_get? {u : UnspentSet} {r : OutputRef} {o : Output} (h : u.get? r = some o) :
    u.valueAt r = o.value.toNat := by
  simp [valueAt, h]

theorem contains_iff {u : UnspentSet} {r : OutputRef} :
    u.contains r = true ↔ ∃ o, u.get? r = some o :=
  Option.isSome_iff_exists

theorem contains_eq_false_iff {u : UnspentSet} {r : OutputRef} :
    u.contains r = false ↔ u.get? r = none :=
  Option.isSome_eq_false_iff.trans Option.isNone_iff_eq_none

theorem mem_of_find {r : OutputRef} {o : Output} {entries : List UnspentEntry}
    (h : find r entries = some o) : (r, o) ∈ entries := by
  induction entries with
  | nil => cases h
  | cons e rest ih =>
      by_cases he : e.1 = r
      · have ho : e.2 = o := by simpa [find, he] using h
        exact List.mem_cons.mpr (.inl (Prod.ext he.symm ho.symm))
      · exact List.mem_cons_of_mem _ (ih (by simpa [find, he] using h))

theorem find_ne_none_of_mem {e : UnspentEntry} {entries : List UnspentEntry} (h : e ∈ entries) :
    find e.1 entries ≠ none := by
  induction entries with
  | nil => cases h
  | cons e' rest ih =>
      by_cases he : e'.1 = e.1
      · simp [find, he]
      · have hmem : e ∈ rest := (List.mem_cons.mp h).resolve_left fun heq => he (heq ▸ rfl)
        simpa [find, he] using ih hmem

theorem perm_put {r : OutputRef} {o : Output} {entries : List UnspentEntry}
    (h : find r entries = none) : (put r o entries).Perm ((r, o) :: entries) := by
  induction entries with
  | nil => exact .refl _
  | cons e rest ih =>
      have he : e.1 ≠ r := by
        intro he
        simp [find, he] at h
      have hrest : find r rest = none := by simpa [find, he] using h
      unfold put
      by_cases hlt : r.rank < e.1.rank
      · rw [if_pos hlt]
      · rw [if_neg hlt, if_neg he]
        exact ((ih hrest).cons e).trans (.swap _ _ _)

theorem total_insert {u : UnspentSet} {r : OutputRef} (h : u.get? r = none) (o : Output) :
    (u.insert r o).total = u.total + o.value.toNat := by
  have hperm := (perm_put (o := o) h).map fun e : UnspentEntry => e.2.value.toNat
  have hsum := hperm.sum_eq
  rw [List.map_cons, List.sum_cons] at hsum
  rw [Nat.add_comm]
  exact hsum

-- References are distinct, so a removal takes one entry at most.
theorem sum_filter_add {r : OutputRef} {entries : List UnspentEntry}
    (hsorted : entries.Pairwise fun a b => a.1.rank < b.1.rank) :
    ((entries.filter fun e => !decide (e.1 = r)).map fun e => e.2.value.toNat).sum +
        ((find r entries).map fun o => o.value.toNat).getD 0 =
      (entries.map fun e => e.2.value.toNat).sum := by
  induction entries with
  | nil => rfl
  | cons e rest ih =>
      obtain ⟨hhead, htail⟩ := List.pairwise_cons.mp hsorted
      have hrest := ih htail
      by_cases he : e.1 = r
      · have hkeep : (rest.filter fun e => !decide (e.1 = r)) = rest := by
          refine List.filter_eq_self.mpr fun e' he' => ?_
          have hne : e'.1 ≠ r := fun heq => by
            have hlt := hhead e' he'
            rw [heq, he] at hlt
            exact Nat.lt_irrefl _ hlt
          simp [hne]
        simp only [find, he, if_true, List.filter_cons, decide_true, Bool.not_true,
          Bool.false_eq_true, if_false, hkeep, Option.map_some, Option.getD_some, List.map_cons,
          List.sum_cons]
        exact Nat.add_comm _ _
      · simp only [find, he, if_false, List.filter_cons, decide_false, Bool.not_false, if_true,
          List.map_cons, List.sum_cons, ← hrest]
        exact Nat.add_assoc _ _ _

theorem total_erase (u : UnspentSet) (r : OutputRef) :
    (u.erase r).total + u.valueAt r = u.total :=
  sum_filter_add u.sorted

end UnspentSet

-- The sum of what outputs hold.
def valueOf (outputs : List Output) : Nat :=
  (outputs.map fun o => o.value.toNat).sum

theorem addValues?_eq_some_iff {a b c : UInt64} :
    addValues? a b = some c ↔ a.toNat + b.toNat = c.toNat := by
  unfold addValues?
  split
  · rename_i hfits
    have hsum : (a + b).toNat = a.toNat + b.toNat := by
      rw [UInt64.toNat_add]
      exact Nat.mod_eq_of_lt hfits
    rw [Option.some.injEq, ← hsum, UInt64.toNat_inj]
  · rename_i hover
    have hc := c.toNat_lt
    simp only [UInt64.size] at hover
    refine iff_of_false (by simp) ?_
    omega

theorem sumFrom?_eq_some_iff {first sum : UInt64} {values : List UInt64} :
    sumFrom? first values = some sum ↔
      first.toNat + (values.map UInt64.toNat).sum = sum.toNat := by
  induction values generalizing first with
  | nil => simp [sumFrom?, UInt64.toNat_inj]
  | cons v rest ih =>
      simp only [sumFrom?, Option.bind_eq_some_iff, addValues?_eq_some_iff, ih, List.map_cons,
        List.sum_cons]
      constructor
      · rintro ⟨mid, hmid, hrest⟩
        omega
      · intro h
        have hsum := sum.toNat_lt
        have hfits : first.toNat + v.toNat < 2 ^ 64 := by omega
        refine ⟨UInt64.ofNat (first.toNat + v.toNat), ?_, ?_⟩
        · rw [UInt64.toNat_ofNat_of_lt' hfits]
        · rw [UInt64.toNat_ofNat_of_lt' hfits]
          omega

namespace Transaction

theorem inputTotal_eq_ok_iff {t : Transaction} {u : UnspentSet} {first sum : UInt64}
    {inputs : List OutputRef} :
    t.inputTotal u first inputs = .ok sum ↔
      (∀ r ∈ inputs, u.contains r = true) ∧
        first.toNat + (inputs.map u.valueAt).sum = sum.toNat := by
  induction inputs generalizing first with
  | nil => simp [inputTotal, UInt64.toNat_inj]
  | cons r rest ih =>
      cases hget : u.get? r with
      | none => simp [inputTotal, hget, UnspentSet.contains]
      | some o =>
          have hvalue := UnspentSet.valueAt_of_get? hget
          have hlive : u.contains r = true := UnspentSet.contains_iff.mpr ⟨o, hget⟩
          simp only [inputTotal, hget, List.forall_mem_cons, hlive, true_and, List.map_cons,
            List.sum_cons, hvalue]
          cases hadd : addValues? first o.value with
          | none =>
              refine iff_of_false (by simp) ?_
              rintro ⟨-, hsum⟩
              have hbound := sum.toNat_lt
              have hfits : first.toNat + o.value.toNat < 2 ^ 64 := by omega
              have hsome := addValues?_eq_some_iff (a := first) (b := o.value)
                (c := UInt64.ofNat (first.toNat + o.value.toNat))
              rw [UInt64.toNat_ofNat_of_lt' hfits, hadd] at hsome
              cases hsome.mpr rfl
          | some mid =>
              have hmid := addValues?_eq_some_iff.mp hadd
              simp only [ih, ← hmid, Nat.add_assoc]

theorem check_eq_ok_iff_exists {t : Transaction} {view : LedgerView} (h : t.inputs ≠ []) :
    t.check view = .ok () ↔
      ∃ paid, t.inputTotal view.unspent 0 t.inputs = .ok paid ∧
        sumFrom? 0 (t.outputs.map (·.value)) = some paid ∧
        ∀ o ∈ t.outputs, o.receiver ∈ view.receivers := by
  have hcoinbase : t.isCoinbase = false := by simpa [isCoinbase] using h
  have hknown : (t.outputs.find? fun o => !decide (o.receiver ∈ view.receivers)) = none ↔
      ∀ o ∈ t.outputs, o.receiver ∈ view.receivers := by
    simp [List.find?_eq_none]
  rw [← hknown]
  unfold check
  cases hin : t.inputTotal view.unspent 0 t.inputs with
  | error e => simp [hcoinbase]
  | ok paidIn =>
      cases hout : sumFrom? 0 (t.outputs.map (·.value)) with
      | none => simp [hcoinbase]
      | some paidOut =>
          by_cases hsame : paidIn = paidOut
          · cases hfind : t.outputs.find? fun o => !decide (o.receiver ∈ view.receivers) <;>
              simp [hcoinbase, hsame]
          · have hsame' : paidOut ≠ paidIn := fun he => hsame he.symm
            simp [hcoinbase, hsame, hsame']

-- A transaction without inputs has to be empty. Any other spends what is live, pays out what it
-- takes in, in a sum that fits 64 bits, and pays known receivers.
theorem check_eq_ok_iff {t : Transaction} {view : LedgerView} :
    t.check view = .ok () ↔
      (t.inputs = [] ∧ t.outputs = []) ∨
        (t.inputs ≠ [] ∧ (∀ r ∈ t.inputs, view.unspent.contains r = true) ∧
          (t.inputs.map view.unspent.valueAt).sum = valueOf t.outputs ∧
          valueOf t.outputs < UInt64.size ∧ ∀ o ∈ t.outputs, o.receiver ∈ view.receivers) := by
  by_cases hcoinbase : t.inputs = []
  · by_cases hout : t.outputs = [] <;> simp [check, isCoinbase, hcoinbase, hout]
  · have hvalues : ((t.outputs.map (·.value)).map UInt64.toNat).sum = valueOf t.outputs := by
      rw [List.map_map]
      rfl
    simp only [check_eq_ok_iff_exists hcoinbase, inputTotal_eq_ok_iff, sumFrom?_eq_some_iff, hvalues,
      UInt64.toNat_zero, Nat.zero_add, hcoinbase, false_and, false_or, ne_eq, not_false_eq_true,
      true_and]
    constructor
    · rintro ⟨paid, ⟨hlive, hin⟩, hout, hknown⟩
      exact ⟨hlive, hin.trans hout.symm, hout ▸ paid.toNat_lt, hknown⟩
    · rintro ⟨hlive, hsame, hfits, hknown⟩
      have hpaid : (UInt64.ofNat (valueOf t.outputs)).toNat = valueOf t.outputs :=
        UInt64.toNat_ofNat_of_lt' hfits
      exact ⟨UInt64.ofNat (valueOf t.outputs), ⟨hlive, hsame.trans hpaid.symm⟩, hpaid.symm, hknown⟩

theorem contains_of_check {t : Transaction} {view : LedgerView} (h : t.check view = .ok ())
    {r : OutputRef} (hr : r ∈ t.inputs) : view.unspent.contains r = true := by
  rcases check_eq_ok_iff.mp h with ⟨hnone, -⟩ | ⟨-, hlive, -⟩
  · rw [hnone] at hr
    cases hr
  · exact hlive r hr

end Transaction

end QuorumLedger
