import QuorumLedger.Proofs.Ledger.Refusal
import QuorumLedger.Proofs.Settings.Acceptance

namespace QuorumLedger.Settings

variable {s : Settings}

-- The committee has members, lists each of them once, and has a leader without faults among them.
structure Led (s : Settings) : Prop where
  nonempty : s.validators ≠ []
  nodup : s.committee.Nodup
  leader : ∃ v ∈ s.validators, v.id = s.leader ∧ v.isFaulty = false

theorem find?_eq_some_iff (h : s.committee.Nodup) {id : ValidatorId} {v : ValidatorSettings} :
    s.find? id = some v ↔ v ∈ s.validators ∧ v.id = id := by
  constructor
  · intro hfind
    exact ⟨List.mem_of_find?_eq_some hfind, by simpa using List.find?_some hfind⟩
  · rintro ⟨hv, rfl⟩
    cases hfind : s.find? v.id with
    | none => simpa using List.find?_eq_none.mp hfind v hv
    | some u =>
        have hu : u.id = v.id := by simpa using List.find?_some hfind
        rw [List.inj_on_of_nodup_map h (List.mem_of_find?_eq_some hfind) hv hu]

theorem find?_eq_none_iff {id : ValidatorId} : s.find? id = none ↔ id ∉ s.committee := by
  simp [find?, committee]

theorem Led.of_wellFormed (h : s.WellFormed) : s.Led where
  nonempty := h.nonempty
  nodup := h.nodup
  leader := by
    obtain ⟨v, hfind, hhonest⟩ := h.leader
    obtain ⟨hv, hid⟩ := (find?_eq_some_iff h.nodup).mp hfind
    exact ⟨v, hv, hid, hhonest⟩

-- There are no more ids than numbers of 64 bits.
theorem length_validators_le (h : s.committee.Nodup) : s.validators.length ≤ UInt64.size := by
  have hinj : Function.Injective fun id : ValidatorId => id.value.toNat :=
    fun _ _ hab => congrArg ValidatorId.mk (UInt64.toNat_inj.mp hab)
  have hlength := length_le_of_nodup hinj (fun id => id.value.toNat_lt) h
  rwa [committee, List.length_map] at hlength

-- A bound below the size of the committee has a triple that fits, so for the verdict on accepted
-- settings it does not matter where the multiplication stops.
theorem wellFormed_iff :
    s.WellFormed ↔ s.Led ∧ 3 * s.faultBound < s.validators.length := by
  refine ⟨fun h => ⟨.of_wellFormed h, h.bound⟩, fun ⟨hled, hbound⟩ => ?_⟩
  obtain ⟨v, hv, hid, hhonest⟩ := hled.leader
  exact {
    nonempty := hled.nonempty
    nodup := hled.nodup
    leader := ⟨v, (find?_eq_some_iff hled.nodup).mpr ⟨hv, hid⟩, hhonest⟩
    fits := Nat.lt_of_lt_of_le hbound (length_validators_le hled.nodup)
    bound := hbound }

-- The ways in which settings fail, each only if those before it do not apply.
inductive Refused (s : Settings) : SettingsError → Prop
  | empty (none : s.validators = []) : Refused s .noValidators
  | repeated {before after : List ValidatorId} {id : ValidatorId}
      (split : s.committee = before ++ id :: after) (first : before.Nodup) (again : id ∈ before) :
      Refused s (.duplicateValidator id)
  | leaderless (nonempty : s.validators ≠ []) (nodup : s.committee.Nodup)
      (unlisted : s.leader ∉ s.committee) : Refused s (.unknownLeader s.leader)
  | faultyLeader {v : ValidatorSettings} (nodup : s.committee.Nodup) (listed : v ∈ s.validators)
      (leads : v.id = s.leader) (faulty : v.isFaulty = true) : Refused s (.faultyLeader s.leader)
  | outnumbered (led : s.Led) (few : s.validators.length ≤ 3 * s.faultBound)
      (fits : 3 * s.faultBound < Checked.limit) :
      Refused s (.tooManyFaulty s.validators.length s.faultBound)
  | overflow (led : s.Led) (exceeds : Checked.limit ≤ 3 * s.faultBound) :
      Refused s (.overflow .multiplication)

theorem checkBound_eq (s : Settings) :
    s.checkBound =
      if Checked.limit ≤ 3 * s.faultBound then .error (.overflow .multiplication)
      else if s.validators.length ≤ 3 * s.faultBound then
        .error (.tooManyFaulty s.validators.length s.faultBound)
      else .ok () := by
  unfold checkBound
  by_cases hexceeds : Checked.limit ≤ 3 * s.faultBound
  · rw [Checked.mul, if_neg (Nat.not_lt_of_le hexceeds), if_pos hexceeds]
  · rw [Checked.mul_eq_ok (Nat.lt_of_not_le hexceeds), if_neg hexceeds]

theorem validate_of_nodup (hne : s.validators ≠ []) (hnodup : s.committee.Nodup) :
    s.validate = s.checkLeader := by
  have hfirst : firstRepeat [] s.committee = none := by simp [firstRepeat_eq_none_iff, hnodup]
  simp [validate, hne, hfirst]

theorem validate_of_led (h : s.Led) : s.validate = s.checkBound := by
  obtain ⟨v, hv, hid, hhonest⟩ := h.leader
  rw [validate_of_nodup h.nonempty h.nodup, checkLeader,
    (find?_eq_some_iff h.nodup).mpr ⟨hv, hid⟩]
  simp [hhonest]

theorem validate_of_refused {e : SettingsError} (h : s.Refused e) : s.validate = .error e := by
  cases h with
  | empty none => simp [validate, none]
  | @repeated before after id split first again =>
      have hne : s.validators ≠ [] := by
        intro hnone
        simp [committee, hnone] at split
      have hfirst := firstRepeat_eq_some_iff.mpr
        ⟨before, after, split, first, fun _ _ => List.not_mem_nil, .inr again⟩
      simp [validate, hne, hfirst]
  | leaderless nonempty nodup unlisted =>
      rw [validate_of_nodup nonempty nodup, checkLeader, find?_eq_none_iff.mpr unlisted]
  | faultyLeader nodup listed leads faulty =>
      rw [validate_of_nodup (List.ne_nil_of_mem listed) nodup, checkLeader,
        (find?_eq_some_iff nodup).mpr ⟨listed, leads⟩]
      simp [faulty]
  | outnumbered led few fits =>
      rw [validate_of_led led, checkBound_eq, if_neg (Nat.not_le_of_lt fits), if_pos few]
  | overflow led exceeds => rw [validate_of_led led, checkBound_eq, if_pos exceeds]

-- One of the reasons applies wherever the settings are not accepted, and as each of them gives one
-- error only, it is the one that is found.
theorem refused_of_validate {e : SettingsError} (h : s.validate = .error e) : s.Refused e := by
  suffices hall : s.validate = .ok () ∨ ∃ e, s.Refused e by
    rcases hall with hok | ⟨e', hrefused⟩
    · rw [hok] at h
      cases h
    · rw [validate_of_refused hrefused] at h
      exact Except.error.inj h ▸ hrefused
  by_cases hnone : s.validators = []
  · exact .inr ⟨_, .empty hnone⟩
  cases hfirst : firstRepeat [] s.committee with
  | some id =>
      obtain ⟨before, after, hsplit, hnodup, -, hagain⟩ := firstRepeat_eq_some_iff.mp hfirst
      exact .inr ⟨_, .repeated hsplit hnodup (hagain.resolve_left List.not_mem_nil)⟩
  | none =>
      have hnodup : s.committee.Nodup := (firstRepeat_eq_none_iff.mp hfirst).1
      cases hfind : s.find? s.leader with
      | none => exact .inr ⟨_, .leaderless hnone hnodup (find?_eq_none_iff.mp hfind)⟩
      | some v =>
          obtain ⟨hv, hid⟩ := (find?_eq_some_iff hnodup).mp hfind
          by_cases hfaulty : v.isFaulty = true
          · exact .inr ⟨_, .faultyLeader hnodup hv hid hfaulty⟩
          have hled : s.Led := ⟨hnone, hnodup, v, hv, hid, by simpa using hfaulty⟩
          by_cases hexceeds : Checked.limit ≤ 3 * s.faultBound
          · exact .inr ⟨_, .overflow hled hexceeds⟩
          by_cases hfew : s.validators.length ≤ 3 * s.faultBound
          · exact .inr ⟨_, .outnumbered hled hfew (Nat.lt_of_not_le hexceeds)⟩
          · rw [validate_of_led hled, checkBound_eq, if_neg hexceeds, if_neg hfew]
            exact .inl rfl

-- The bound is below a third of the size of the committee, so where the size leaves one bit free
-- there is room for every sum.
theorem thresholds_fit (h : s.WellFormed) (hsize : s.validators.length < Nat.pow 2 63) :
    s.thresholds.echoQuorum? = .ok ((s.validators.length + s.faultBound + 1) / 2) ∧
      s.thresholds.readyQuorum? = .ok (s.faultBound + 1) ∧
      s.thresholds.deliveryThreshold? = .ok (2 * s.faultBound + 1) := by
  have hbound := h.bound
  have hfaulty := toNat_faulty_thresholds h
  have hlimit : Checked.limit = 2 * Nat.pow 2 63 := by decide
  have hvalidators : s.thresholds.validators.toNat = s.validators.length :=
    UInt64.toNat_ofNat_of_lt' (Nat.lt_trans hsize (by decide))
  refine ⟨?_, ?_, ?_⟩
  · rw [Thresholds.echoQuorum?, hvalidators, hfaulty, Checked.add_eq_ok (by omega)]
    change (Checked.add _ 1 >>= fun sum => pure (sum / 2)) = _
    rw [Checked.add_eq_ok (by omega)]
    rfl
  · rw [Thresholds.readyQuorum?, hfaulty, Checked.add_eq_ok (by omega)]
  · rw [Thresholds.deliveryThreshold?, hfaulty, Checked.mul_eq_ok (by omega)]
    exact Checked.add_eq_ok (by omega)

-- No list in memory has as many as 2^63 entries.
theorem validate_verdict (s : Settings) :
    (s.validate = .ok () ↔ s.Led ∧ 3 * s.faultBound < s.validators.length) ∧
      (∀ e, s.validate = .error e ↔ s.Refused e) ∧
      (s.validate = .ok () → s.validators.length < Nat.pow 2 63 →
        s.thresholds.echoQuorum? = .ok ((s.validators.length + s.faultBound + 1) / 2) ∧
          s.thresholds.readyQuorum? = .ok (s.faultBound + 1) ∧
          s.thresholds.deliveryThreshold? = .ok (2 * s.faultBound + 1)) := by
  refine ⟨validate_eq_ok_iff.trans wellFormed_iff,
    fun e => ⟨refused_of_validate, validate_of_refused⟩, fun haccepted hsize => ?_⟩
  exact thresholds_fit (validate_eq_ok_iff.mp haccepted) hsize

-- Four validators, and a number of faults whose triple would be two if it were cut to 64 bits.
def excessive : Settings :=
  { ofCount 4 with maxFaulty := some 6148914691236517206 }

theorem validate_verdict_excessive :
    (tolerant 5).validate = .ok () ∧ (tolerant 5).validators.length < Nat.pow 2 63 ∧
      (tolerant 5).thresholds.echoQuorum? = .ok 3 ∧
      (tolerant 5).thresholds.readyQuorum? = .ok 2 ∧
      (tolerant 5).thresholds.deliveryThreshold? = .ok 3 ∧ excessive.Led ∧
      3 * excessive.faultBound % Checked.limit < excessive.validators.length ∧
      excessive.validate = .error (.overflow .multiplication) := by
  have haccepted : (tolerant 5).validate = .ok () := by decide
  have hsize : (tolerant 5).validators.length < Nat.pow 2 63 := by decide
  have hled : excessive.Led := ⟨by decide, by decide, by decide⟩
  obtain ⟨hecho, hready, hdelivery⟩ := (validate_verdict (tolerant 5)).2.2 haccepted hsize
  exact ⟨haccepted, hsize, hecho, hready, hdelivery, hled, by decide,
    ((validate_verdict excessive).2.1 _).mpr (.overflow hled (by decide))⟩

end QuorumLedger.Settings
