import QuorumLedger.Proofs.Ledger.BlockCheck
import QuorumLedger.Settings.Basic

namespace QuorumLedger.Settings

variable {s : Settings}

theorem checkBound_eq_ok_iff :
    s.checkBound = .ok () ↔
      3 * s.faultBound < Checked.limit ∧ 3 * s.faultBound < s.validators.length := by
  unfold checkBound
  by_cases hfits : 3 * s.faultBound < Checked.limit
  · rw [Checked.mul_eq_ok hfits]
    by_cases hfew : s.validators.length ≤ 3 * s.faultBound
    · simp [hfew]
    · simp [hfew, hfits, Nat.lt_of_not_le hfew]
  · simp [Checked.mul, hfits]

theorem checkLeader_eq_ok_iff :
    s.checkLeader = .ok () ↔
      (∃ v, s.find? s.leader = some v ∧ v.isFaulty = false) ∧ s.checkBound = .ok () := by
  unfold checkLeader
  cases hfind : s.find? s.leader with
  | none => simp
  | some v => cases hfaulty : v.isFaulty <;> simp [hfaulty]

-- What settings that are accepted have.
structure WellFormed (s : Settings) : Prop where
  nonempty : s.validators ≠ []
  nodup : s.committee.Nodup
  leader : ∃ v, s.find? s.leader = some v ∧ v.isFaulty = false
  fits : 3 * s.faultBound < Checked.limit
  bound : 3 * s.faultBound < s.validators.length

theorem validate_eq_ok_iff : s.validate = .ok () ↔ s.WellFormed := by
  have hrepeat : firstRepeat [] s.committee = none ↔ s.committee.Nodup := by
    simp [firstRepeat_eq_none_iff]
  have hsplit : s.validate = .ok () ↔
      s.validators ≠ [] ∧ s.committee.Nodup ∧ s.checkLeader = .ok () := by
    rw [← hrepeat]
    unfold validate
    by_cases hempty : s.validators = []
    · simp [hempty]
    · cases hfirst : firstRepeat [] s.committee <;> simp [hempty]
  rw [hsplit, checkLeader_eq_ok_iff, checkBound_eq_ok_iff]
  constructor
  · rintro ⟨hne, hnodup, hleader, hfits, hbound⟩
    exact ⟨hne, hnodup, hleader, hfits, hbound⟩
  · rintro ⟨hne, hnodup, hleader, hfits, hbound⟩
    exact ⟨hne, hnodup, hleader, hfits, hbound⟩

theorem toNat_faulty_thresholds (h : s.WellFormed) :
    s.thresholds.faulty.toNat = s.faultBound := by
  have hfits := h.fits
  unfold Checked.limit at hfits
  exact UInt64.toNat_ofNat_of_lt (by omega)

theorem toNat_validators_thresholds_le (s : Settings) :
    s.thresholds.validators.toNat ≤ s.validators.length := by
  rw [thresholds, UInt64.toNat_ofNat']
  exact Nat.mod_le _ _

-- Of 3f + 1 validators f may crash, and the 2f + 1 that are left are one vote short of delivery.
theorem thresholds_reached_iff (h : s.validate = .ok ()) :
    s.thresholds.echoQuorum ≤ s.validators.length - s.faultBound ∧
      s.thresholds.readyQuorum ≤ s.validators.length - s.faultBound ∧
      (s.thresholds.delivers (s.validators.length - s.faultBound) = true ↔
        3 * s.faultBound + 1 < s.validators.length) := by
  have hwell := validate_eq_ok_iff.mp h
  have hbound := hwell.bound
  have hfaulty := toNat_faulty_thresholds hwell
  have hsize := s.toNat_validators_thresholds_le
  refine ⟨?_, ?_, ?_⟩
  · rw [Thresholds.echoQuorum, hfaulty]
    omega
  · rw [Thresholds.readyQuorum, hfaulty]
    omega
  · rw [Thresholds.delivers, decide_eq_true_iff, Thresholds.deliveryThreshold, hfaulty]
    omega

-- Honest validators of which one is expected to crash.
def tolerant (count : Nat) : Settings :=
  { ofCount count with maxFaulty := some 1 }

theorem thresholds_reached_of_five :
    (tolerant 5).validate = .ok () ∧ (tolerant 5).thresholds.echoQuorum ≤ 4 ∧
      (tolerant 5).thresholds.readyQuorum ≤ 4 ∧ (tolerant 5).thresholds.delivers 4 = true := by
  have hvalid : (tolerant 5).validate = .ok () := by decide
  obtain ⟨hecho, hready, hdelivers⟩ := thresholds_reached_iff hvalid
  exact ⟨hvalid, hecho, hready, hdelivers.mpr (by decide)⟩

-- Four validators are accepted with one fault, and the three that are left do not deliver.
theorem not_delivers_of_validate :
    ¬ ∀ s : Settings, s.validate = .ok () →
      s.thresholds.echoQuorum ≤ s.validators.length - s.faultBound ∧
        s.thresholds.readyQuorum ≤ s.validators.length - s.faultBound ∧
        s.thresholds.delivers (s.validators.length - s.faultBound) = true := by
  intro h
  exact absurd (h (tolerant 4) (by decide)).2.2 (by decide)

end QuorumLedger.Settings
