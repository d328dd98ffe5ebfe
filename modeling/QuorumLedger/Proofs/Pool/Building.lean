import QuorumLedger.Proofs.Pool.Selection

namespace QuorumLedger

namespace Draft

-- What assembly keeps: every transaction may be spent, and no two of them share an input.
structure Consistent (view : LedgerView) (d : Draft) : Prop where
  passes : ∀ t ∈ d.transactions, t.check view = .ok ()
  disjoint : d.transactions.Pairwise fun s t => s.inputs.Disjoint t.inputs

theorem consistent_start (view : LedgerView) (height : Height) (parent : Digest) :
    (start height parent).Consistent view where
  passes := by simp [start]
  disjoint := .nil

theorem Consistent.add {view : LedgerView} {d : Draft} {t : Transaction} (hd : d.Consistent view)
    (ht : t.Joins view d.transactions) : (d.add t).Consistent view := by
  constructor
  · intro s hs
    rcases List.mem_append.mp hs with hs | hs
    · exact hd.passes s hs
    · exact (List.mem_singleton.mp hs) ▸ ht.1
  · exact List.pairwise_append.mpr ⟨hd.disjoint, List.pairwise_singleton _ _, fun s hs u hu =>
      (List.mem_singleton.mp hu) ▸ ht.2 s hs⟩

theorem Consistent.check_finalize_eq_ok_iff {view : LedgerView} {d : Draft}
    (hd : d.Consistent view) :
    d.finalize.check view = .ok () ↔ ∀ t ∈ d.transactions, t.inputs.Nodup := by
  rw [Block.check_eq_ok_iff]
  constructor
  · rintro ⟨-, -, hspent⟩
    exact (nodup_inputsOf_iff.mp hspent).1
  · intro h
    exact ⟨rfl, hd.passes, nodup_inputsOf_iff.mpr ⟨h, hd.disjoint⟩⟩

-- A draft that is checked after all fails for no other reason.
theorem Consistent.check_finalize_eq_error {view : LedgerView} {d : Draft} (hd : d.Consistent view)
    {e : LedgerError} (he : d.finalize.check view = .error e) :
    ∃ t ∈ d.transactions, ∃ r, 2 ≤ t.inputs.count r ∧ e = .duplicateInput r := by
  have hall := Block.checkTransactions_eq_ok_iff.mpr hd.passes
  cases hfirst : firstRepeat [] (inputsOf d.transactions) with
  | none => simp [Block.check, finalize, Block.spent, hall, hfirst] at he
  | some r =>
      have hr : e = .duplicateInput r := by
        simpa [Block.check, finalize, Block.spent, hall, hfirst, eq_comm] using he
      obtain ⟨-, hcases⟩ := firstRepeat_eq_some hfirst
      have htwice := hcases.resolve_left List.not_mem_nil
      obtain ⟨t, ht, hcount⟩ := exists_two_le_count hd.disjoint htwice
      exact ⟨t, ht, r, hcount, hr⟩

end Draft

namespace Pool

theorem consistent_fill {view : LedgerView} {max : Nat} {queue : List Transaction} {d : Draft}
    (hd : d.Consistent view) : (fill view max queue d).1.Consistent view := by
  induction queue generalizing d with
  | nil => exact hd
  | cons t rest ih =>
      rw [fill_cons]
      split
      · by_cases ht : t.Joins view d.transactions
        · rw [if_pos ht]
          exact ih (hd.add ht)
        · rw [if_neg ht]
          exact ih hd
      · exact hd

-- A pool's block is a finished draft, and building leaves the ledger as it is.
theorem buildBlock_eq_some {p : Pool} {height : Height} {parent : Digest} {b : Block}
    (h : (p.buildBlock height parent).1 = some b) :
    (p.buildBlock height parent).2.view = p.view ∧
      ∃ d : Draft, d.Consistent p.view ∧ b = d.finalize := by
  unfold buildBlock at h ⊢
  by_cases hempty : p.pending.isEmpty
  · simp [hempty] at h
  · have hd : (fill p.view p.limits.maxBlockTransactions.toNat p.pending
        (Draft.start height parent)).1.Consistent p.view :=
      consistent_fill (Draft.consistent_start _ _ _)
    simp only [hempty, Bool.false_eq_true, if_false, Option.some.injEq] at h ⊢
    exact ⟨trivial, _, hd, h.symm⟩

-- A transaction that lists an input twice passes on its own, since each of its inputs is live, and
-- assembly compares it with the other transactions alone. The check of the whole block refuses it.
theorem check_buildBlock {p : Pool} {height : Height} {parent : Digest} {b : Block}
    (h : (p.buildBlock height parent).1 = some b) :
    (b.check (p.buildBlock height parent).2.view = .ok () ↔
        ∀ t ∈ b.transactions, t.inputs.Nodup) ∧
      ∀ e, b.check (p.buildBlock height parent).2.view = .error e →
        ∃ t ∈ b.transactions, ∃ r, 2 ≤ t.inputs.count r ∧ e = .duplicateInput r := by
  obtain ⟨hview, d, hd, rfl⟩ := buildBlock_eq_some h
  rw [hview]
  exact ⟨hd.check_finalize_eq_ok_iff, fun e he => hd.check_finalize_eq_error he⟩

-- Pays out twice what its only input holds.
def doubled : Transaction :=
  ⟨⟨7⟩, ⟨0⟩, [⟨⟨0⟩, 0⟩, ⟨⟨0⟩, 0⟩], [⟨200, ⟨0⟩⟩], none, some ⟨Vector.replicate keyBits .zero⟩⟩

-- A pool that was funded and then took `doubled`.
def doubling : Pool :=
  (((create {} [⟨0⟩]).initializeCoins 100).submit doubled).2

theorem check_buildBlock_doubling :
    ∃ b, (doubling.buildBlock ⟨1⟩ .zero).1 = some b ∧
      b.check (doubling.buildBlock ⟨1⟩ .zero).2.view ≠ .ok () := by
  have hbuilt : (doubling.buildBlock ⟨1⟩ .zero).1 =
      some (Draft.finalize ⟨⟨1⟩, .zero, [doubled]⟩) := rfl
  refine ⟨_, hbuilt, fun hok => ?_⟩
  have hnodup := (check_buildBlock hbuilt).1.mp hok doubled (by simp [Draft.finalize])
  exact absurd hnodup (by decide)

end Pool

end QuorumLedger
