import QuorumLedger.Consensus.Message
import QuorumLedger.Consensus.Tally
import QuorumLedger.Proofs.Table

namespace QuorumLedger.Tally

-- What a counted message does to the tally.
def take (t : Tally) (kind : MessageKind) (d : Digest) : Tally :=
  match kind with
  | .send => t.recordSend d
  | .echo => t.recordEcho d
  | .ready => t.recordReady d

-- How many READYs for a block were called for, none or one.
def marks (t : Tally) (d : Digest) : Nat :=
  if d ∈ t.readySent then 1 else 0

-- No block has two entries, so an entry is what a look-up finds, and none has an entry for nothing.
structure Proper (t : Tally) : Prop where
  echoes : t.echoes.keys.Nodup
  readies : t.readies.keys.Nodup
  positive : ∀ d count, t.echoes.get? d = some count → 0 < count

theorem proper_start : start.Proper :=
  ⟨.nil, .nil, by simp [start]⟩

section Fields

variable (t : Tally) (kind : MessageKind) (d d' : Digest)

-- All that taking a message can change. The phase may leave `waiting`, no more.
theorem take_eq : ∃ phase, (phase = .delivered ↔ t.phase = .delivered) ∧
    t.take kind d =
      { t with
        echoes := if kind = .echo then t.echoes.set d (t.echoCount d + 1) else t.echoes
        readies := if kind = .ready then t.readies.set d (t.readyCount d + 1) else t.readies
        pendingSend := if kind = .send then some d else t.pendingSend
        phase } := by
  by_cases hw : t.phase = .waiting
  · cases kind with
    | ready => exact ⟨t.phase, .rfl, rfl⟩
    | send => exact ⟨.voting, by simp [hw], by simp [take, recordSend, startVoting, hw]⟩
    | echo => exact ⟨.voting, by simp [hw], by simp [take, recordEcho, startVoting, hw]⟩
  · refine ⟨t.phase, .rfl, ?_⟩
    cases kind <;> simp [take, recordSend, recordEcho, recordReady, startVoting, hw]

theorem echoCount_take :
    (t.take kind d).echoCount d' = t.echoCount d' + if kind = .echo ∧ d = d' then 1 else 0 := by
  obtain ⟨phase, -, h⟩ := t.take_eq kind d
  rw [h]
  by_cases hk : kind = .echo
  · by_cases hd : d = d' <;> simp [echoCount, hk, hd]
  · simp [echoCount, hk]

theorem readyCount_take :
    (t.take kind d).readyCount d' = t.readyCount d' + if kind = .ready ∧ d = d' then 1 else 0 := by
  obtain ⟨phase, -, h⟩ := t.take_eq kind d
  rw [h]
  by_cases hk : kind = .ready
  · by_cases hd : d = d' <;> simp [readyCount, hk, hd]
  · simp [readyCount, hk]

@[simp]
theorem readySent_take : (t.take kind d).readySent = t.readySent := by
  obtain ⟨phase, -, h⟩ := t.take_eq kind d
  rw [h]

theorem marks_take : (t.take kind d).marks d' = t.marks d' := by
  simp [marks]

@[simp]
theorem voted_take : (t.take kind d).voted = t.voted := by
  obtain ⟨phase, -, h⟩ := t.take_eq kind d
  rw [h]

@[simp]
theorem isDelivered_take : (t.take kind d).isDelivered = t.isDelivered := by
  obtain ⟨phase, hphase, h⟩ := t.take_eq kind d
  rw [h]
  simp [isDelivered, hphase]

theorem pendingSend_take :
    (t.take kind d).pendingSend = if kind = .send then some d else t.pendingSend := by
  obtain ⟨phase, -, h⟩ := t.take_eq kind d
  rw [h]

end Fields

theorem Proper.take {t : Tally} (h : t.Proper) (kind : MessageKind) (d : Digest) :
    (t.take kind d).Proper := by
  obtain ⟨phase, -, heq⟩ := t.take_eq kind d
  rw [heq]
  constructor
  · dsimp only
    split
    · exact Table.nodup_keys_set h.echoes _ _
    · exact h.echoes
  · dsimp only
    split
    · exact Table.nodup_keys_set h.readies _ _
    · exact h.readies
  · intro d' count hget
    dsimp only at hget
    split at hget
    · rw [Table.get?_set] at hget
      split at hget
      · obtain rfl := Option.some.inj hget
        exact Nat.succ_pos _
      · exact h.positive d' count hget
    · exact h.positive d' count hget

theorem marks_le_one (t : Tally) (d : Digest) : t.marks d ≤ 1 := by
  unfold marks
  split <;> decide

theorem marks_mark {t : Tally} {d : Digest} (hnew : d ∉ t.readySent) (d' : Digest) :
    { t with readySent := d :: t.readySent }.marks d' = t.marks d' + if d = d' then 1 else 0 := by
  by_cases hd : d = d'
  · subst hd
    simp [marks, hnew]
  · have hd' : d' ≠ d := fun he => hd he.symm
    simp [marks, hd, hd']

theorem markReady_eq_true {t t' : Tally} {d : Digest} (h : t.markReady d = (true, t')) :
    d ∉ t.readySent ∧ t' = { t with readySent := d :: t.readySent } := by
  unfold markReady at h
  split at h
  · cases h
  · rename_i hd
    exact ⟨hd, (Prod.mk.inj h).2.symm⟩

theorem echoCount_deliver (t : Tally) (d d' : Digest) :
    (t.deliver d).echoCount d' = if d = d' then 0 else t.echoCount d' := by
  by_cases h : d = d' <;> simp [deliver, echoCount, h]

theorem readyCount_deliver (t : Tally) (d d' : Digest) :
    (t.deliver d).readyCount d' = if d = d' then 0 else t.readyCount d' := by
  by_cases h : d = d' <;> simp [deliver, readyCount, h]

theorem Proper.deliver {t : Tally} (h : t.Proper) (d : Digest) : (t.deliver d).Proper := by
  refine ⟨Table.nodup_keys_erase h.echoes d, Table.nodup_keys_erase h.readies d, ?_⟩
  intro d' count hget
  simp only [Tally.deliver, Table.get?_erase] at hget
  split at hget
  · cases hget
  · exact h.positive d' count hget

theorem Proper.le_echoCount {t : Tally} (h : t.Proper) {quorum : Nat} {d : Digest}
    (hmem : d ∈ t.echoed quorum) : 0 < t.echoCount d ∧ quorum ≤ t.echoCount d := by
  simp only [echoed, List.mem_map, List.mem_filter, decide_eq_true_eq, Prod.exists] at hmem
  obtain ⟨d', count, ⟨hmem, hle⟩, rfl⟩ := hmem
  have hget := (Table.get?_eq_some_iff h.echoes).mpr hmem
  rw [echoCount, hget]
  exact ⟨h.positive _ _ hget, hle⟩

theorem mem_echoed {t : Tally} {quorum : Nat} {d : Digest} (hpos : 0 < t.echoCount d)
    (hle : quorum ≤ t.echoCount d) : d ∈ t.echoed quorum := by
  simp only [echoed, List.mem_map, List.mem_filter, decide_eq_true_eq, Prod.exists]
  unfold echoCount at hpos hle
  cases hget : t.echoes.get? d with
  | none => simp [hget] at hpos
  | some count =>
      rw [hget] at hle
      exact ⟨d, count, ⟨Table.mem_entries_of_get? hget, hle⟩, rfl⟩

theorem Proper.readyCount_of_mem {t : Tally} (h : t.Proper) {d : Digest} {count : Nat}
    (hmem : (d, count) ∈ t.readies.entries) : t.readyCount d = count := by
  rw [readyCount, (Table.get?_eq_some_iff h.readies).mpr hmem]
  rfl

theorem exists_mem_readies {t : Tally} {d : Digest} (h : 0 < t.readyCount d) :
    (d, t.readyCount d) ∈ t.readies.entries := by
  unfold readyCount at h ⊢
  cases hget : t.readies.get? d with
  | none => simp [hget] at h
  | some count => exact Table.mem_entries_of_get? hget

end QuorumLedger.Tally
