import Mathlib.Algebra.GroupWithZero.Nat
import Mathlib.Data.List.Nodup
import QuorumLedger.Table

namespace QuorumLedger.Table

variable {κ α : Type} [DecidableEq κ]

theorem find_eq_some_iff {k : κ} {a : α} {entries : List (κ × α)}
    (h : (entries.map (·.1)).Nodup) : find k entries = some a ↔ (k, a) ∈ entries := by
  induction entries with
  | nil => simp [find]
  | cons e rest ih =>
      obtain ⟨l, b⟩ := e
      obtain ⟨hl, hrest⟩ := List.nodup_cons.mp h
      by_cases hk : l = k
      · subst hk
        have hout : (l, a) ∉ rest := fun hm => hl (List.mem_map.mpr ⟨_, hm, rfl⟩)
        simp [find, hout, eq_comm]
      · have hk' : k ≠ l := fun he => hk he.symm
        simp [find, hk, hk', ih hrest]

theorem get?_eq_some_iff {t : Table κ α} (h : t.keys.Nodup) {k : κ} {a : α} :
    t.get? k = some a ↔ (k, a) ∈ t.entries :=
  find_eq_some_iff h

theorem contains_set_of_ne {k k' : κ} (h : k ≠ k') (t : Table κ α) (a : α) :
    (t.set k a).contains k' = t.contains k' := by
  simp [contains, h]

theorem contains_of_erase {t : Table κ α} {k k' : κ} (h : (t.erase k).contains k' = true) :
    t.contains k' = true := by
  unfold contains at h ⊢
  rw [get?_erase] at h
  split at h
  · cases h
  · exact h

theorem mem_entries_of_get? {t : Table κ α} {k : κ} {a : α} (h : t.get? k = some a) :
    (k, a) ∈ t.entries := by
  obtain ⟨entries⟩ := t
  change find k entries = some a at h
  change (k, a) ∈ entries
  induction entries with
  | nil => simp [find] at h
  | cons e rest ih =>
      by_cases hk : e.1 = k
      · have ha : e.2 = a := by simpa [find, hk] using h
        exact List.mem_cons.mpr (.inl (Prod.ext hk.symm ha.symm))
      · exact List.mem_cons_of_mem _ (ih (by simpa [find, hk] using h))

theorem exists_get?_of_mem_keys {t : Table κ α} {k : κ} (h : k ∈ t.keys) :
    ∃ a, t.get? k = some a := by
  obtain ⟨entries⟩ := t
  change k ∈ entries.map (·.1) at h
  change ∃ a, find k entries = some a
  induction entries with
  | nil => cases h
  | cons e rest ih =>
      by_cases hk : e.1 = k
      · exact ⟨e.2, by simp [find, hk]⟩
      · obtain ⟨a, ha⟩ := ih ((List.mem_cons.mp h).resolve_left fun he => hk he.symm)
        exact ⟨a, by simp [find, hk, ha]⟩

theorem find_map_of_mem (f : κ → α) {k : κ} {ks : List κ} (h : k ∈ ks) :
    find k (ks.map fun l => (l, f l)) = some (f k) := by
  induction ks with
  | nil => cases h
  | cons l rest ih =>
      by_cases hl : l = k
      · simp [find, hl]
      · have hrest : k ∈ rest := (List.mem_cons.mp h).resolve_left fun he => hl he.symm
        simp only [List.map_cons, find, hl, if_false, ih hrest]

theorem keys_put (k : κ) (a : α) (entries : List (κ × α)) :
    (put k a entries).map (·.1) =
      if k ∈ entries.map (·.1) then entries.map (·.1) else entries.map (·.1) ++ [k] := by
  induction entries with
  | nil => simp [put]
  | cons e rest ih =>
      by_cases hk : e.1 = k
      · simp [put, hk]
      · have hk' : k ≠ e.1 := fun he => hk he.symm
        by_cases hm : k ∈ rest.map (·.1)
        · simp only [put, hk, if_false, List.map_cons, ih, hm, if_true, List.mem_cons, or_true]
        · simp only [put, hk, if_false, List.map_cons, ih, hm, List.mem_cons, hk', or_self,
            List.cons_append]

theorem keys_set_of_get? {t : Table κ α} {k : κ} {a : α} (h : t.get? k = some a) (b : α) :
    (t.set k b).keys = t.keys := by
  have hk : k ∈ t.entries.map (·.1) := List.mem_map.mpr ⟨_, mem_entries_of_get? h, rfl⟩
  exact (keys_put k b t.entries).trans (if_pos hk)

theorem nodup_keys_set {t : Table κ α} (h : t.keys.Nodup) (k : κ) (a : α) :
    (t.set k a).keys.Nodup := by
  have hkeys : (t.set k a).keys = if k ∈ t.keys then t.keys else t.keys ++ [k] :=
    keys_put k a t.entries
  rw [hkeys]
  split
  · exact h
  · rename_i hk
    exact List.nodup_append.mpr ⟨h, List.nodup_singleton k, fun l hl m hm he =>
      hk (by rwa [← List.mem_singleton.mp hm, ← he])⟩

theorem nodup_keys_erase {t : Table κ α} (h : t.keys.Nodup) (k : κ) : (t.erase k).keys.Nodup :=
  h.sublist ((List.filter_sublist).map _)

-- A number that is counted over the entries changes with the one that is replaced.
theorem sum_set {t : Table κ α} {k : κ} {a : α} (h : t.get? k = some a) (b : α) (f : α → Nat) :
    ((t.set k b).entries.map fun e => f e.2).sum + f a =
      (t.entries.map fun e => f e.2).sum + f b := by
  obtain ⟨entries⟩ := t
  change find k entries = some a at h
  change ((put k b entries).map fun e => f e.2).sum + f a = (entries.map fun e => f e.2).sum + f b
  induction entries with
  | nil => cases h
  | cons e rest ih =>
      by_cases hk : e.1 = k
      · have ha : e.2 = a := by simpa [find, hk] using h
        simp only [put, hk, if_true, List.map_cons, List.sum_cons, ha]
        omega
      · have hrest := ih (by simpa [find, hk] using h)
        simp only [put, hk, if_false, List.map_cons, List.sum_cons]
        omega

end QuorumLedger.Table
