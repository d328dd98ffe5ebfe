import Mathlib.Data.List.TakeWhile
import QuorumLedger.Text.Blank

namespace QuorumLedger.Text

variable {separator : Char} {cs word : List Char} {pieces : List (List Char)}

-- The parts of a text between separators.
structure Cut (separator : Char) (cs : List Char) (pieces : List (List Char)) : Prop where
  joined : [separator].intercalate pieces = cs
  nonempty : pieces ≠ []
  whole : ∀ p ∈ pieces, separator ∉ p

theorem split_eq_splitOn (separator : Char) (cs : List Char) :
    split separator cs = cs.splitOn separator := by
  induction cs with
  | nil => rfl
  | cons c cs ih =>
      have hcons : (c :: cs).splitOn separator = if c = separator then [] :: cs.splitOn separator
          else (cs.splitOn separator).modifyHead (c :: ·) := by
        simp [List.splitOn, List.splitOnP_cons_eq_if_modifyHead]
      rw [split, ih, hcons]
      split
      · rfl
      · cases hparts : cs.splitOn separator with
        | nil => exact absurd hparts (List.splitOn_ne_nil separator cs)
        | cons part parts => rfl

theorem split_ne_nil (separator : Char) (cs : List Char) : split separator cs ≠ [] := by
  rw [split_eq_splitOn]
  exact List.splitOn_ne_nil separator cs

theorem not_mem_of_mem_split {p : List Char} (h : p ∈ split separator cs) : separator ∉ p := by
  induction cs generalizing p with
  | nil =>
      rw [List.mem_singleton.mp h]
      exact List.not_mem_nil
  | cons c cs ih =>
      rw [split] at h
      split at h
      · rcases List.mem_cons.mp h with rfl | hp
        · exact List.not_mem_nil
        · exact ih hp
      · rename_i hc
        cases hparts : split separator cs with
        | nil => exact absurd hparts (split_ne_nil separator cs)
        | cons part parts =>
            rw [hparts] at h
            rcases List.mem_cons.mp h with rfl | hp
            · exact List.not_mem_cons_of_ne_of_not_mem (Ne.symm hc) (ih (by simp [hparts]))
            · exact ih (by simp [hparts, hp])

theorem split_eq_iff : split separator cs = pieces ↔ Cut separator cs pieces := by
  constructor
  · rintro rfl
    refine ⟨?_, split_ne_nil separator cs, fun p => not_mem_of_mem_split⟩
    rw [split_eq_splitOn, List.intercalate_splitOn]
  · rintro ⟨rfl, hne, hwhole⟩
    rw [split_eq_splitOn, List.splitOn_intercalate separator hwhole hne]

-- A separator keeps what stands before it apart from what stands behind it.
theorem split_append_cons (separator : Char) (cs ds : List Char) :
    split separator (cs ++ separator :: ds) = split separator cs ++ split separator ds := by
  induction cs with
  | nil => simp [split]
  | cons c cs ih =>
      rw [List.cons_append, split, split, ih]
      split
      · rfl
      · cases hparts : split separator cs with
        | nil => exact absurd hparts (split_ne_nil separator cs)
        | cons part parts => rfl

-- What is left of a text without the blanks at its ends.
def Trims (cs word : List Char) : Prop :=
  ∃ left right, cs = left ++ (word ++ right) ∧ (∀ c ∈ left, isBlank c = true) ∧
    (∀ c ∈ right, isBlank c = true) ∧ (∀ c ∈ word.head?, isBlank c = false) ∧
      ∀ c ∈ word.getLast?, isBlank c = false

section Ends

variable {α : Type} {p : α → Bool} {xs ys : List α}

theorem dropWhile_eq_iff : xs.dropWhile p = ys ↔
    ∃ left, xs = left ++ ys ∧ (∀ x ∈ left, p x = true) ∧ ∀ x ∈ ys.head?, p x = false := by
  constructor
  · rintro rfl
    refine ⟨xs.takeWhile p, List.takeWhile_append_dropWhile.symm,
      fun x hx => List.mem_takeWhile_imp hx, fun x hx => ?_⟩
    have hhead := List.head?_dropWhile_not p xs
    rwa [Option.mem_def.mp hx] at hhead
  · rintro ⟨left, rfl, hleft, hhead⟩
    rw [List.dropWhile_append_of_pos hleft]
    cases ys with
    | nil => rfl
    | cons y ys => rw [List.dropWhile_cons_of_neg (by simp [hhead y rfl])]

end Ends

theorem trimRight_eq_iff : trimRight cs = word ↔ ∃ right, cs = word ++ right ∧
    (∀ c ∈ right, isBlank c = true) ∧ ∀ c ∈ word.getLast?, isBlank c = false := by
  rw [trimRight, List.reverse_eq_iff, dropWhile_eq_iff]
  constructor
  · rintro ⟨left, hcs, hleft, hhead⟩
    refine ⟨left.reverse, ?_, by simpa using hleft, by simpa using hhead⟩
    rw [← List.reverse_inj, hcs]
    simp
  · rintro ⟨right, rfl, hright, hlast⟩
    exact ⟨right.reverse, by simp, by simpa using hright, by simpa using hlast⟩

theorem trim_eq_iff : trim cs = word ↔ Trims cs word := by
  rw [trim, trimRight_eq_iff]
  constructor
  · rintro ⟨right, hmiddle, hright, hlast⟩
    obtain ⟨left, hcs, hleft, hhead⟩ := dropWhile_eq_iff.mp hmiddle
    refine ⟨left, right, hcs, hleft, hright, fun c hc => hhead c ?_, hlast⟩
    rw [List.head?_append, Option.mem_def.mp hc]
    rfl
  · rintro ⟨left, right, rfl, hleft, hright, hhead, hlast⟩
    cases word with
    | nil =>
        -- A blank text is blank on the right of a word as well as on its left.
        refine ⟨[], ?_, by simp, by simp⟩
        rw [List.dropWhile_append_of_pos hleft]
        exact List.dropWhile_eq_nil_iff.mpr hright
    | cons c word =>
        exact ⟨right, dropWhile_eq_iff.mpr ⟨left, rfl, hleft, hhead⟩, hright, hlast⟩

theorem trim_eq_nil_iff : trim cs = [] ↔ ∀ c ∈ cs, isBlank c = true := by
  rw [trim_eq_iff]
  constructor
  · rintro ⟨left, right, rfl, hleft, hright, -⟩
    exact List.forall_mem_append.mpr ⟨hleft, hright⟩
  · intro h
    exact ⟨cs, [], by simp, h, by simp, by simp, by simp⟩

end QuorumLedger.Text
