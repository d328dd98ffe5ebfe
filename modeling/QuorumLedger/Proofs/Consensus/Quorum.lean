import Mathlib.Algebra.Group.Nat.Even
import Mathlib.Data.Finset.Card
import QuorumLedger.Consensus.Thresholds
import QuorumLedger.Ledger.Id

namespace QuorumLedger

namespace Thresholds

-- Rounding down is exact if committee and faults add up to an odd number.
theorem two_mul_echoQuorum_of_odd {t : Thresholds}
    (h : ¬ Even (t.validators.toNat + t.faulty.toNat)) :
    2 * t.echoQuorum = t.validators.toNat + t.faulty.toNat + 1 := by
  rw [Nat.even_iff] at h
  unfold echoQuorum
  omega

theorem two_mul_echoQuorum_of_even {t : Thresholds}
    (h : Even (t.validators.toNat + t.faulty.toNat)) :
    2 * t.echoQuorum = t.validators.toNat + t.faulty.toNat := by
  rw [Nat.even_iff] at h
  unfold echoQuorum
  omega

theorem le_two_mul_echoQuorum (t : Thresholds) :
    t.validators.toNat + t.faulty.toNat ≤ 2 * t.echoQuorum := by
  unfold echoQuorum
  omega

end Thresholds

-- A committee and those of its members that need not follow the protocol.
structure Roster where
  thresholds : Thresholds
  members : Finset ValidatorId
  faulty : Finset ValidatorId
  card_members : members.card = thresholds.validators.toNat
  faulty_subset : faulty ⊆ members
  card_faulty : faulty.card ≤ thresholds.faulty.toNat

namespace Roster

def honest (R : Roster) : Finset ValidatorId :=
  R.members \ R.faulty

variable {R : Roster} {A B : Finset ValidatorId}

theorem card_honest_add (R : Roster) :
    R.honest.card + R.faulty.card = R.thresholds.validators.toNat := by
  rw [← R.card_members]
  exact Finset.card_sdiff_add_card_eq_card R.faulty_subset

theorem card_le_card_inter_honest_add (hA : A ⊆ R.members) :
    A.card ≤ (A ∩ R.honest).card + R.faulty.card := by
  have hcover : A ⊆ (A ∩ R.honest) ∪ R.faulty := by
    intro u hu
    by_cases hfaulty : u ∈ R.faulty
    · exact Finset.mem_union_right _ hfaulty
    · exact Finset.mem_union_left _
        (Finset.mem_inter.mpr ⟨hu, Finset.mem_sdiff.mpr ⟨hA hu, hfaulty⟩⟩)
  exact (Finset.card_le_card hcover).trans (Finset.card_union_le _ _)

theorem exists_honest_mem (hA : A ⊆ R.members) (hcard : R.thresholds.readyQuorum ≤ A.card) :
    ∃ u ∈ R.honest, u ∈ A := by
  have hle := card_le_card_inter_honest_add hA
  have hfaulty := R.card_faulty
  unfold Thresholds.readyQuorum at hcard
  obtain ⟨u, hu⟩ := Finset.card_pos.mp (show 0 < (A ∩ R.honest).card by omega)
  exact ⟨u, (Finset.mem_inter.mp hu).2, (Finset.mem_inter.mp hu).1⟩

theorem two_mul_le_card_inter_add {q : Nat} (hA : A ⊆ R.members) (hB : B ⊆ R.members)
    (hqA : q ≤ A.card) (hqB : q ≤ B.card) :
    2 * q ≤ (A ∩ B).card + R.thresholds.validators.toNat := by
  have hunion := Finset.card_le_card (Finset.union_subset hA hB)
  have hsum := Finset.card_union_add_card_inter A B
  rw [R.card_members] at hunion
  omega

-- With an even sum two quorums may meet in no more members than there are faults.
theorem exists_honest_mem_both (hA : A ⊆ R.members) (hB : B ⊆ R.members)
    (hqA : R.thresholds.echoQuorum ≤ A.card) (hqB : R.thresholds.echoQuorum ≤ B.card) :
    (∃ u ∈ R.honest, u ∈ A ∧ u ∈ B) ∨
      Even (R.thresholds.validators.toNat + R.thresholds.faulty.toNat) ∧
        R.faulty.card = R.thresholds.faulty.toNat := by
  by_cases hboth : ∃ u ∈ R.honest, u ∈ A ∧ u ∈ B
  · exact .inl hboth
  · right
    have hfaulty : A ∩ B ⊆ R.faulty := by
      intro u hu
      obtain ⟨huA, huB⟩ := Finset.mem_inter.mp hu
      by_contra hu'
      exact hboth ⟨u, Finset.mem_sdiff.mpr ⟨hA huA, hu'⟩, huA, huB⟩
    have hinter := Finset.card_le_card hfaulty
    have hcount := R.two_mul_le_card_inter_add hA hB hqA hqB
    have hbound := R.card_faulty
    have hquorum := R.thresholds.le_two_mul_echoQuorum
    constructor
    · by_contra hodd
      have hexact := Thresholds.two_mul_echoQuorum_of_odd hodd
      omega
    · omega

-- Members enough to answer for a READY with their ECHOs.
structure IsEchoQuorum (R : Roster) (A : Finset ValidatorId) : Prop where
  subset : A ⊆ R.members
  le_card : R.thresholds.echoQuorum ≤ A.card

instance (R : Roster) (A : Finset ValidatorId) : Decidable (R.IsEchoQuorum A) :=
  decidable_of_iff (A ⊆ R.members ∧ R.thresholds.echoQuorum ≤ A.card)
    ⟨fun h => ⟨h.1, h.2⟩, fun h => ⟨h.subset, h.le_card⟩⟩

theorem IsEchoQuorum.faulty_le_card_inter (hA : R.IsEchoQuorum A) (hB : R.IsEchoQuorum B) :
    R.thresholds.faulty.toNat ≤ (A ∩ B).card := by
  have hcount := R.two_mul_le_card_inter_add hA.subset hB.subset hA.le_card hB.le_card
  have hquorum := R.thresholds.le_two_mul_echoQuorum
  omega

theorem IsEchoQuorum.faulty_lt_card_inter (hA : R.IsEchoQuorum A) (hB : R.IsEchoQuorum B)
    (hodd : ¬ Even (R.thresholds.validators.toNat + R.thresholds.faulty.toNat)) :
    R.thresholds.faulty.toNat < (A ∩ B).card := by
  have hcount := R.two_mul_le_card_inter_add hA.subset hB.subset hA.le_card hB.le_card
  have hquorum := Thresholds.two_mul_echoQuorum_of_odd hodd
  omega

-- One quorum, and as many of its members as there may be faults together with all others.
theorem exists_card_inter_eq_faulty
    (heven : Even (R.thresholds.validators.toNat + R.thresholds.faulty.toNat))
    (hle : R.thresholds.faulty.toNat ≤ R.thresholds.validators.toNat) :
    ∃ A B, R.IsEchoQuorum A ∧ R.IsEchoQuorum B ∧
      (A ∩ B).card = R.thresholds.faulty.toNat := by
  have hquorum := Thresholds.two_mul_echoQuorum_of_even heven
  obtain ⟨A, hA, hcardA⟩ := Finset.exists_subset_card_eq (s := R.members)
    (show R.thresholds.echoQuorum ≤ R.members.card by rw [R.card_members]; omega)
  obtain ⟨C, hC, hcardC⟩ := Finset.exists_subset_card_eq (s := A)
    (show R.thresholds.faulty.toNat ≤ A.card by omega)
  have hapart : Disjoint C (R.members \ A) := Finset.disjoint_sdiff.mono_left hC
  have hmeet : A ∩ (C ∪ R.members \ A) = C := by
    rw [Finset.inter_union_distrib_left, Finset.inter_sdiff_self, Finset.union_empty,
      Finset.inter_eq_right.mpr hC]
  have hothers := Finset.card_sdiff_add_card_eq_card hA
  rw [R.card_members] at hothers
  refine ⟨A, C ∪ R.members \ A, ⟨hA, hcardA.ge⟩, ⟨?_, ?_⟩, by rw [hmeet, hcardC]⟩
  · exact Finset.union_subset (hC.trans hA) Finset.sdiff_subset
  · rw [Finset.card_union_of_disjoint hapart]
    omega

-- Half a vote is lost to rounding when committee and faults add up to an even number, and then two
-- quorums may share as few members as may be faulty.
theorem echoQuorums_meet (R : Roster)
    (hbound : 3 * R.thresholds.faulty.toNat < R.thresholds.validators.toNat) :
    (∀ A B, R.IsEchoQuorum A → R.IsEchoQuorum B →
      R.thresholds.faulty.toNat ≤ (A ∩ B).card ∧
        (¬ Even (R.thresholds.validators.toNat + R.thresholds.faulty.toNat) ∨
            R.faulty.card < R.thresholds.faulty.toNat →
          ∃ u ∈ R.honest, u ∈ A ∧ u ∈ B)) ∧
      ((∀ A B, R.IsEchoQuorum A → R.IsEchoQuorum B →
          R.thresholds.faulty.toNat < (A ∩ B).card) ↔
        ¬ Even (R.thresholds.validators.toNat + R.thresholds.faulty.toNat)) := by
  refine ⟨fun A B hA hB => ⟨hA.faulty_le_card_inter hB, fun hspare => ?_⟩, fun hall heven => ?_,
    fun hodd A B hA hB => hA.faulty_lt_card_inter hB hodd⟩
  · rcases exists_honest_mem_both hA.subset hB.subset hA.le_card hB.le_card with hboth |
      ⟨heven, hfull⟩
    · exact hboth
    · rcases hspare with hodd | hfew
      · exact absurd heven hodd
      · omega
  · obtain ⟨A, B, hA, hB, hmeet⟩ := exists_card_inter_eq_faulty heven (by omega)
    have hmore := hall A B hA hB
    omega

-- Four members, one of them faulty.
def oneOfFour : Roster where
  thresholds := ⟨4, 1⟩
  members := {⟨0⟩, ⟨1⟩, ⟨2⟩, ⟨3⟩}
  faulty := {⟨1⟩}
  card_members := by decide
  faulty_subset := by decide
  card_faulty := by decide

theorem echoQuorums_meet_oneOfFour :
    3 * oneOfFour.thresholds.faulty.toNat < oneOfFour.thresholds.validators.toNat ∧
      ∃ u ∈ oneOfFour.honest, u ∈ ({⟨0⟩, ⟨1⟩, ⟨2⟩} : Finset ValidatorId) ∧
        u ∈ ({⟨1⟩, ⟨2⟩, ⟨3⟩} : Finset ValidatorId) := by
  have hbound : 3 * oneOfFour.thresholds.faulty.toNat < oneOfFour.thresholds.validators.toNat := by
    decide
  exact ⟨hbound, ((echoQuorums_meet oneOfFour hbound).1 _ _ (by decide) (by decide)).2
    (.inl (by decide))⟩

-- Five members, the one in the middle faulty.
def oneOfFive : Roster where
  thresholds := ⟨5, 1⟩
  members := {⟨0⟩, ⟨1⟩, ⟨2⟩, ⟨3⟩, ⟨4⟩}
  faulty := {⟨2⟩}
  card_members := by decide
  faulty_subset := by decide
  card_faulty := by decide

-- Three of five are a quorum, and two such may have nobody but the faulty member in common.
theorem not_faulty_lt_card_inter :
    ¬ ∀ (R : Roster) (A B : Finset ValidatorId),
      3 * R.thresholds.faulty.toNat < R.thresholds.validators.toNat →
      R.IsEchoQuorum A → R.IsEchoQuorum B →
        R.thresholds.faulty.toNat < (A ∩ B).card ∧ ∃ u ∈ A ∩ B, u ∉ R.faulty := by
  intro h
  obtain ⟨-, u, hu, hhonest⟩ := h oneOfFive {⟨0⟩, ⟨1⟩, ⟨2⟩} {⟨2⟩, ⟨3⟩, ⟨4⟩} (by decide)
    (by decide) (by decide)
  have hmeet : ({⟨0⟩, ⟨1⟩, ⟨2⟩} ∩ {⟨2⟩, ⟨3⟩, ⟨4⟩} : Finset ValidatorId) = oneOfFive.faulty := by
    decide
  exact hhonest (hmeet ▸ hu)

end Roster

end QuorumLedger
