import Mathlib.Data.List.Basic
import QuorumLedger.Random.Source

namespace QuorumLedger.WordSource

-- A finite stream, and zeros after it.
instance : WordSource (List UInt32) where
  next
    | [] => (0, [])
    | word :: rest => (word, rest)

section Below

variable {σ : Type} {draw : σ → Nat × σ} {s s' : σ} {width range n i : Nat}

theorem below_succ (draw : σ → Nat × σ) (width range attempts : Nat) (s : σ) :
    below draw width range (attempts + 1) s =
      if (draw s).1 * range % Nat.pow 2 width ≤ zone width range then
        some ((draw s).1 * range / Nat.pow 2 width, (draw s).2)
      else below draw width range attempts (draw s).2 :=
  rfl

-- The value is the share of the range that the word is of all words.
theorem below_lt (hdraw : ∀ s, (draw s).1 < Nat.pow 2 width) (hrange : 0 < range) {attempts : Nat}
    (h : below draw width range attempts s = some (n, s')) : n < range := by
  induction attempts generalizing s with
  | zero => cases h
  | succ attempts ih =>
      rw [below_succ] at h
      split at h
      · cases h
        refine Nat.div_lt_of_lt_mul ?_
        exact Nat.mul_lt_mul_of_pos_right (hdraw s) hrange
      · exact ih h

theorem below_mono {attempts more : Nat} (hmore : attempts ≤ more) {r : Nat × σ}
    (h : below draw width range attempts s = some r) : below draw width range more s = some r := by
  induction attempts generalizing s more with
  | zero => cases h
  | succ attempts ih =>
      obtain ⟨more, rfl⟩ := Nat.exists_eq_add_of_lt (Nat.lt_of_lt_of_le (Nat.succ_pos _) hmore)
      rw [Nat.zero_add] at hmore ⊢
      rw [below_succ] at h ⊢
      by_cases haccepted : (draw s).1 * range % Nat.pow 2 width ≤ zone width range
      · rwa [if_pos haccepted] at h ⊢
      · rw [if_neg haccepted] at h ⊢
        exact ih (Nat.le_of_succ_le_succ hmore) h

-- The zone is never smaller than the range, so the first word whose high half is a given number is
-- accepted.
theorem exists_word (width : Nat) (hi : i < range) (hrange : range ≤ Nat.pow 2 width) :
    ∃ word < Nat.pow 2 width, word * range % Nat.pow 2 width ≤ zone width range ∧
      word * range / Nat.pow 2 width = i := by
  have hpos : 0 < range := Nat.lt_of_le_of_lt (Nat.zero_le i) hi
  have hwidth : 0 < Nat.pow 2 width := Nat.lt_of_lt_of_le hpos hrange
  obtain ⟨word, rest, hrest, hword⟩ :
      ∃ word rest, rest < range ∧ word * range = rest + i * Nat.pow 2 width := by
    have hdivided := Nat.div_add_mod (i * Nat.pow 2 width + (range - 1)) range
    have hremainder := Nat.mod_lt (i * Nat.pow 2 width + (range - 1)) hpos
    refine ⟨(i * Nat.pow 2 width + (range - 1)) / range,
      range - 1 - (i * Nat.pow 2 width + (range - 1)) % range, by omega, ?_⟩
    rw [Nat.mul_comm]
    omega
  have hzone : range ≤ range * Nat.pow 2 (width - 1 - range.log2) :=
    Nat.le_mul_of_pos_right range (Nat.pow_pos (by decide))
  have hshort : rest < Nat.pow 2 width := Nat.lt_of_lt_of_le hrest hrange
  refine ⟨word, Nat.lt_of_mul_lt_mul_right (a := range) ?_, ?_, ?_⟩
  · calc
      word * range < (i + 1) * Nat.pow 2 width := by
        rw [hword, Nat.succ_mul]
        omega
      _ ≤ range * Nat.pow 2 width := Nat.mul_le_mul_right _ hi
      _ = Nat.pow 2 width * range := Nat.mul_comm _ _
  · rw [hword, Nat.add_mul_mod_self_right, Nat.mod_eq_of_lt hshort, zone]
    omega
  · rw [hword, Nat.add_mul_div_right _ _ hwidth, Nat.div_eq_of_lt hshort, Nat.zero_add]

end Below

variable {σ : Type} [WordSource σ] {s s' : σ} {range n i : Nat}

theorem next64_lt (s : σ) : (next64 s).1 < Nat.pow 2 64 := by
  have hlow := (next s).1.toNat_lt
  have hhigh := (next (next s).2).1.toNat_lt
  change (next s).1.toNat + UInt32.size * (next (next s).2).1.toNat < Nat.pow 2 64
  simp only [UInt32.size, Nat.pow_eq] at hlow hhigh ⊢
  omega

theorem below64_lt (hrange : 0 < range) {attempts : Nat}
    (h : below64 range attempts s = some (n, s')) : n < range :=
  below_lt next64_lt hrange h

theorem between64_mem {low high attempts : Nat} (hhigh : high < UInt64.size)
    (h : between64 low high attempts s = some (n, s')) : low ≤ n ∧ n ≤ max low high := by
  unfold between64 at h
  simp only at h
  split at h
  · next hall =>
      have hword := next64_lt s
      rw [Option.some.inj h] at hword
      simp only [UInt64.size, Nat.pow_eq] at hall hhigh hword
      omega
  · obtain ⟨⟨value, rest⟩, hvalue, heq⟩ := Option.map_eq_some_iff.mp h
    have hlt := below64_lt (Nat.succ_pos _) hvalue
    cases heq
    omega

-- Every number below the bound is the first that some stream draws.
theorem exists_below64 (hi : i < range) (hrange : range ≤ UInt64.size) :
    ∃ words : List UInt32, below64 range 1 words = some (i, []) := by
  obtain ⟨word, hword, hzone, hvalue⟩ := exists_word 64 hi hrange
  obtain ⟨words, hwords⟩ : ∃ words : List UInt32, next64 words = (word, []) := by
    refine ⟨[UInt32.ofNat (word % UInt32.size), UInt32.ofNat (word / UInt32.size)], ?_⟩
    have hlow : (UInt32.ofNat (word % UInt32.size)).toNat = word % UInt32.size :=
      UInt32.toNat_ofNat_of_lt' (Nat.mod_lt _ (by decide))
    have hhigh : (UInt32.ofNat (word / UInt32.size)).toNat = word / UInt32.size :=
      UInt32.toNat_ofNat_of_lt' (Nat.div_lt_of_lt_mul hword)
    simp only [next64, next, hlow, hhigh, Nat.mod_add_div]
  refine ⟨words, ?_⟩
  rw [below64, below_succ, hwords, if_pos hzone, hvalue]

theorem perm_shuffleFrom {α : Type} {attempts : Nat} {xs ys : Array α}
    (h : shuffleFrom attempts n xs s = some (ys, s')) : ys.toList.Perm xs.toList := by
  induction n generalizing xs s with
  | zero => cases h; exact .rfl
  | succ n ih =>
      obtain ⟨⟨j, rest⟩, -, hrest⟩ := Option.bind_eq_some_iff.mp h
      refine (ih hrest).trans (Array.perm_iff_toList_perm.mp ?_)
      unfold Array.swapIfInBounds
      split
      · split
        · exact Array.swap_perm _ _
        · exact .rfl
      · exact .rfl

theorem perm_shuffle {α : Type} {attempts : Nat} {xs ys : List α}
    (h : shuffle attempts xs s = some (ys, s')) : ys.Perm xs := by
  obtain ⟨⟨shuffled, rest⟩, hshuffled, heq⟩ := Option.bind_eq_some_iff.mp h
  cases heq
  exact perm_shuffleFrom hshuffled

end QuorumLedger.WordSource
