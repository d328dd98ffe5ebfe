import Mathlib.Data.List.Infix
import Mathlib.Data.List.Nodup
import Mathlib.Data.Set.Function
import QuorumLedger.Ledger.Merkle

namespace QuorumLedger

-- Two different strings of a list have one digest.
def Digest.Collides (strings : List Bytes) : Prop :=
  ∃ x ∈ strings, ∃ y ∈ strings, x ≠ y ∧ Digest.of x = Digest.of y

theorem Digest.injOn_of {strings : List Bytes} (h : ¬ Digest.Collides strings) :
    Set.InjOn Digest.of {x | x ∈ strings} := by
  intro x hx y hy hxy
  by_contra hne
  exact h ⟨x, hx, y, hy, hne, hxy⟩

theorem Digest.not_collides_of_nodup {strings : List Bytes} (h : (strings.map Digest.of).Nodup) :
    ¬ Digest.Collides strings := by
  rintro ⟨x, hx, y, hy, hne, hxy⟩
  exact hne (List.inj_on_of_nodup_map h hx hy hxy)

-- The second list is the first and then, if it goes on, nothing that the first does not have.
structure Padded {α : Type} (xs ys : List α) : Prop where
  front : xs <+: ys
  within : ys ⊆ xs

namespace Padded

variable {α β : Type} {f : α → β} {xs ys : List α}

theorem refl (xs : List α) : Padded xs xs :=
  ⟨List.prefix_rfl, List.Subset.refl xs⟩

theorem mem_iff (h : Padded xs ys) {x : α} : x ∈ xs ↔ x ∈ ys :=
  ⟨fun hx => h.front.subset hx, fun hx => h.within hx⟩

theorem eq_of_length (h : Padded xs ys) (hlength : xs.length = ys.length) : xs = ys :=
  h.front.eq_of_length hlength

theorem prefix_of_map (hf : Set.InjOn f {x | x ∈ xs ++ ys}) (h : xs.map f <+: ys.map f) :
    xs <+: ys := by
  induction xs generalizing ys with
  | nil => exact List.nil_prefix
  | cons x xs ih =>
      cases ys with
      | nil => simp at h
      | cons y ys =>
          rw [List.map_cons, List.map_cons, List.cons_prefix_cons] at h
          have hxy : x = y := hf (by simp) (by simp) h.1
          have hrest : Set.InjOn f {x | x ∈ xs ++ ys} := hf.mono fun z hz => by
            rcases List.mem_append.mp hz with hz | hz <;> simp [hz]
          exact hxy ▸ (List.prefix_cons_inj x).mpr (ih hrest h.2)

-- Padding is seen through a function that tells all the elements apart.
theorem of_map (hf : Set.InjOn f {x | x ∈ xs ++ ys}) (h : Padded (xs.map f) (ys.map f)) :
    Padded xs ys where
  front := prefix_of_map hf h.front
  within y hy := by
    obtain ⟨x, hx, hxy⟩ := List.mem_map.mp (h.within (List.mem_map_of_mem hy))
    have he : x = y := hf (List.mem_append_left _ hx) (List.mem_append_right _ hy) hxy
    exact he ▸ hx

end Padded

namespace Merkle

variable {level level' : List Digest} {x : Digest} {p : Digest × Digest}

def join (p : Digest × Digest) : Digest :=
  node p.1 p.2

theorem nodeBytes_inj {p q : Digest × Digest}
    (h : nodeBytes p.1 p.2 = nodeBytes q.1 q.2) : p = q := by
  obtain ⟨hleft, hright⟩ := List.append_inj h (by simp)
  exact Prod.ext (Bytes32.toList_inj hleft) (Bytes32.toList_inj hright)

-- The neighbours that are hashed with each other.
def pairs : List Digest → List (Digest × Digest)
  | [] => []
  | [last] => [(last, last)]
  | left :: right :: rest => (left, right) :: pairs rest

theorem map_join_pairs : ∀ level : List Digest, (pairs level).map join = parents level
  | [] => rfl
  | [_] => rfl
  | _ :: _ :: rest => congrArg (List.cons _) (map_join_pairs rest)

theorem mem_iff_exists_pair : ∀ {level : List Digest},
    x ∈ level ↔ ∃ p ∈ pairs level, x = p.1 ∨ x = p.2
  | [] => by simp [pairs]
  | [_] => by simp [pairs]
  | _ :: _ :: rest => by
    simp only [pairs, List.mem_cons, exists_eq_or_imp, or_assoc]
    exact or_congr_right (or_congr_right mem_iff_exists_pair)

-- The levels that are hashed, from the leaves up to the last one below the root.
def levels : List Digest → List (List Digest)
  | [] => []
  | [leaf] => [[leaf]]
  | [left, right] => [[left, right]]
  | a :: b :: c :: rest => (a :: b :: c :: rest) :: levels (parents (a :: b :: c :: rest))
termination_by level => level.length
decreasing_by
  simp only [length_parents, List.length_cons]
  omega

-- The nodes between the leaves and the root.
def inner (level : List Digest) : List Digest :=
  (levels level).tail.flatten

def paired (level : List Digest) : List (Digest × Digest) :=
  (levels level).flatMap pairs

-- All strings that are hashed for the root.
def hashed (level : List Digest) : List Bytes :=
  (paired level).map fun p => nodeBytes p.1 p.2

theorem length_of_mem_hashed {bytes : Bytes} (h : bytes ∈ hashed level) : bytes.length = 64 := by
  obtain ⟨p, -, rfl⟩ := List.mem_map.mp h
  simp [nodeBytes]

-- No leaf, a single pass over one pair, or a first pass and then the tree over its results. What is
-- proved of all trees is proved by induction on this.
inductive Shape : List Digest → Prop where
  | empty : Shape []
  | last {level : List Digest} (p : Digest × Digest) (hpairs : pairs level = [p])
      (hlevels : levels level = [level]) (hroot : root level = some (join p)) : Shape level
  | more {level : List Digest} (hlevels : levels level = level :: levels (parents level))
      (hroot : root level = root (parents level)) (hparents : parents level ≠ [])
      (above : Shape (parents level)) : Shape level

theorem shape (level : List Digest) : Shape level := by
  induction level using root.induct with
  | case1 => exact .empty
  | case2 leaf => exact .last (leaf, leaf) rfl (by rw [levels]) (by rw [root]; rfl)
  | case3 left right => exact .last (left, right) rfl (by rw [levels]) (by rw [root]; rfl)
  | case4 a b c rest ih => exact .more (by rw [levels]) (by rw [root]) (by simp [parents]) ih

theorem flatten_levels (level : List Digest) : (levels level).flatten = level ++ inner level := by
  cases shape level with
  | empty => simp [levels, inner]
  | last p hpairs hlevels hroot => simp [inner, hlevels]
  | more hlevels hroot hparents above => simp [inner, hlevels]

theorem pairs_subset (level : List Digest) : pairs level ⊆ paired level := by
  cases shape level with
  | empty => simp [pairs]
  | last p hpairs hlevels hroot => simp [paired, hlevels]
  | more hlevels hroot hparents above => simp [paired, hlevels]

theorem paired_parents_subset (hlevels : levels level = level :: levels (parents level)) :
    paired (parents level) ⊆ paired level := by
  simp [paired, hlevels]

theorem inner_eq (hlevels : levels level = level :: levels (parents level)) :
    inner level = parents level ++ inner (parents level) := by
  rw [← flatten_levels, inner, hlevels, List.tail_cons]

theorem fst_mem_of_pairs (h : p ∈ pairs level) : p.1 ∈ level :=
  mem_iff_exists_pair.mpr ⟨p, h, .inl rfl⟩

theorem root_eq_none_iff (level : List Digest) : root level = none ↔ level = [] := by
  induction shape level with
  | empty => simp [root]
  | last p hpairs hlevels hroot =>
      refine iff_of_false (by simp [hroot]) ?_
      rintro rfl
      simp [pairs] at hpairs
  | more hlevels hroot hparents above ih =>
      rw [hroot, ih]
      refine iff_of_false hparents ?_
      rintro rfl
      exact hparents rfl

-- The root and every inner node are the digest of a pair that stands below them.
theorem exists_paired (level : List Digest) (h : root level = some x ∨ x ∈ inner level) :
    ∃ p ∈ paired level, x = join p ∧ p.1 ∈ level ++ inner level := by
  induction shape level with
  | empty => simp [root, inner, levels] at h
  | @last level p hpairs hlevels hroot =>
      have hx : x = join p := by simpa [hroot, inner, hlevels, eq_comm] using h
      have hp : p ∈ pairs level := by simp [hpairs]
      exact ⟨p, pairs_subset level hp, hx, List.mem_append_left _ (fst_mem_of_pairs hp)⟩
  | @more level hlevels hroot hparents above ih =>
      rw [hroot, inner_eq hlevels, List.mem_append, or_left_comm] at h
      rcases h with hparent | hrest
      · rw [← map_join_pairs] at hparent
        obtain ⟨p, hp, hjoin⟩ := List.mem_map.mp hparent
        exact ⟨p, pairs_subset level hp, hjoin.symm, List.mem_append_left _ (fst_mem_of_pairs hp)⟩
      · obtain ⟨p, hp, hjoin, hleft⟩ := ih hrest
        exact ⟨p, paired_parents_subset hlevels hp, hjoin,
          List.mem_append_right _ (inner_eq hlevels ▸ hleft)⟩

theorem prefix_of_pairs : ∀ {level level' : List Digest}, pairs level <+: pairs level' →
    level <+: level' ∨ level' <+: level
  | [], _, _ => .inl List.nil_prefix
  | _, [], _ => .inr List.nil_prefix
  | [a], [b], h => by
    have hab : a = b := by simpa [pairs] using h
    exact .inl (hab ▸ List.prefix_rfl)
  | [a], l :: r :: rest, h => by
    have hl : a = l ∧ a = r := by simpa [pairs] using h
    simp [hl.1]
  | l :: r :: rest, [b], h => by
    have hl : l = b ∧ r = b ∧ pairs rest = [] := by simpa [pairs, and_assoc] using h
    simp [hl.1]
  | l :: r :: rest, l' :: r' :: rest', h => by
    obtain ⟨hl, hr, hrest⟩ : l = l' ∧ r = r' ∧ pairs rest <+: pairs rest' := by
      simpa [pairs, and_assoc] using h
    simpa [hl, hr] using prefix_of_pairs hrest

theorem padded_of_pairs (h : Padded (pairs level) (pairs level')) :
    Padded level level' ∨ Padded level' level := by
  have hmem : ∀ x, x ∈ level ↔ x ∈ level' := fun x => by
    simp only [mem_iff_exists_pair, h.mem_iff]
  exact (prefix_of_pairs h.front).imp (fun hp => ⟨hp, fun x => (hmem x).mpr⟩)
    (fun hp => ⟨hp, fun x => (hmem x).mp⟩)

-- One list is the other padded, or a leaf of one is an inner node of the other.
inductive Alike (level level' : List Digest) : Prop where
  | longer (h : Padded level level')
  | shorter (h : Padded level' level)
  | below (x : Digest) (hleaf : x ∈ level) (hinner : x ∈ inner level')
  | above (x : Digest) (hleaf : x ∈ level') (hinner : x ∈ inner level)

-- The pairs hashed for two roots, told apart by their digests.
def Apart (level level' : List Digest) : Prop :=
  Set.InjOn join {p | p ∈ paired level ++ paired level'}

-- The pairs of two lists are told apart as soon as the strings are that are hashed for them.
theorem apart_of_injOn (h : Set.InjOn Digest.of {x | x ∈ hashed level ++ hashed level'}) :
    Apart level level' := by
  have hmem : ∀ p ∈ paired level ++ paired level',
      nodeBytes p.1 p.2 ∈ hashed level ++ hashed level' := fun p hp =>
    List.mem_append.mpr ((List.mem_append.mp hp).imp (List.mem_map_of_mem ·) (List.mem_map_of_mem ·))
  intro p hp q hq hjoin
  exact nodeBytes_inj (h (hmem p hp) (hmem q hq) hjoin)

theorem Apart.symm (h : Apart level level') : Apart level' level :=
  Set.InjOn.mono (fun p hp => by simpa [or_comm] using hp) h

theorem Apart.parents (hapart : Apart level level')
    (hlevels : levels level = level :: levels (parents level))
    (hlevels' : levels level' = level' :: levels (parents level')) :
    Apart (parents level) (parents level') :=
  Set.InjOn.mono (fun _ hp => List.append_subset.mpr
    ⟨List.subset_append_of_subset_left _ (paired_parents_subset hlevels),
      List.subset_append_of_subset_right _ (paired_parents_subset hlevels')⟩ hp) hapart

-- A node over two leaves of one list that is the root or an inner node over the second level of
-- another makes one of these leaves an inner node there.
theorem fst_mem_inner (hapart : Apart level level') (hp : p ∈ pairs level)
    (hlevels : levels level' = level' :: levels (parents level'))
    (h : root (parents level') = some (join p) ∨ join p ∈ inner (parents level')) :
    p.1 ∈ inner level' := by
  obtain ⟨q, hq, hjoin, hbelow⟩ := exists_paired (parents level') h
  have hpq : p = q := hapart (List.mem_append_left _ (pairs_subset level hp))
    (List.mem_append_right _ (paired_parents_subset hlevels hq)) hjoin
  rwa [inner_eq hlevels, hpq]

theorem Alike.symm (h : Alike level level') : Alike level' level := by
  cases h with
  | longer h => exact .shorter h
  | shorter h => exact .longer h
  | below x hleaf hinner => exact .above x hleaf hinner
  | above x hleaf hinner => exact .below x hleaf hinner

theorem padded_of_parents (hapart : Apart level level')
    (h : Padded (parents level) (parents level')) : Padded level level' ∨ Padded level' level := by
  have hinj : Set.InjOn join {p | p ∈ pairs level ++ pairs level'} :=
    Set.InjOn.mono (fun _ hp => List.append_subset.mpr
      ⟨List.subset_append_of_subset_left _ (pairs_subset level),
        List.subset_append_of_subset_right _ (pairs_subset level')⟩ hp) hapart
  rw [← map_join_pairs, ← map_join_pairs] at h
  exact padded_of_pairs (h.of_map hinj)

theorem Alike.of_padded_parents (hapart : Apart level level')
    (h : Padded (parents level) (parents level')) : Alike level level' :=
  (padded_of_parents hapart h).elim .longer .shorter

-- A parent in one tree that is an inner node over the parents of the other.
theorem Alike.of_parent_mem_inner (hapart : Apart level level')
    (hlevels : levels level' = level' :: levels (parents level')) (hx : x ∈ parents level)
    (h : x ∈ inner (parents level')) : Alike level level' := by
  rw [← map_join_pairs] at hx
  obtain ⟨p, hp, rfl⟩ := List.mem_map.mp hx
  exact .below p.1 (fst_mem_of_pairs hp) (fst_mem_inner hapart hp hlevels (.inr h))

theorem Alike.of_parents (hapart : Apart level level')
    (hlevels : levels level = level :: levels (parents level))
    (hlevels' : levels level' = level' :: levels (parents level'))
    (h : Alike (parents level) (parents level')) : Alike level level' := by
  cases h with
  | longer h => exact .of_padded_parents hapart h
  | shorter h => exact (of_padded_parents hapart.symm h).symm
  | below x hleaf hinner => exact .of_parent_mem_inner hapart hlevels' hleaf hinner
  | above x hleaf hinner => exact (of_parent_mem_inner hapart.symm hlevels hleaf hinner).symm

-- A single pass on one side and several on the other.
theorem Alike.of_last (hapart : Apart level level') (hpairs : pairs level = [p])
    (hroot : root level = some (join p))
    (hlevels : levels level' = level' :: levels (parents level'))
    (h : root level = root (parents level')) : Alike level level' := by
  have hp : p ∈ pairs level := by simp [hpairs]
  have habove := fst_mem_inner hapart hp hlevels (.inl (h.symm.trans hroot))
  exact .below p.1 (fst_mem_of_pairs hp) habove

-- A single pass on both sides.
theorem Alike.of_pair (hapart : Apart level level') {q : Digest × Digest}
    (hpairs : pairs level = [p]) (hpairs' : pairs level' = [q]) (h : join p = join q) :
    Alike level level' := by
  have hpq : p = q := hapart (List.mem_append_left _ (pairs_subset _ (by simp [hpairs])))
    (List.mem_append_right _ (pairs_subset _ (by simp [hpairs']))) h
  have hsame : pairs level = pairs level' := by rw [hpairs, hpairs', hpq]
  exact (padded_of_pairs (hsame ▸ .refl _)).elim .longer .shorter

theorem alike_of_root (level level' : List Digest) (hapart : Apart level level')
    (h : root level = root level') : Alike level level' := by
  induction shape level generalizing level' with
  | empty =>
      have hnone := h.symm.trans ((root_eq_none_iff []).mpr rfl)
      rw [(root_eq_none_iff level').mp hnone]
      exact .longer (.refl [])
  | last p hpairs hlevels hroot =>
      cases shape level' with
      | empty => simp [hroot, root] at h
      | last q hpairs' hlevels' hroot' =>
          exact .of_pair hapart hpairs hpairs' (by simpa [hroot, hroot'] using h)
      | more hlevels' hroot' hparents' above' =>
          exact .of_last hapart hpairs hroot hlevels' (h.trans hroot')
  | more hlevels hroot hparents above ih =>
      cases shape level' with
      | empty =>
          have hnone := hroot.symm.trans (h.trans ((root_eq_none_iff []).mpr rfl))
          exact absurd ((root_eq_none_iff _).mp hnone) hparents
      | last q hpairs' hlevels' hroot' =>
          exact (Alike.of_last hapart.symm hpairs' hroot' hlevels (h.symm.trans hroot)).symm
      | more hlevels' hroot' hparents' above' =>
          have hbelow := ih _ (hapart.parents hlevels hlevels')
            (hroot.symm.trans (h.trans hroot'))
          exact hbelow.of_parents hapart hlevels hlevels'

-- Where padding is ruled out by the length, a level is determined by the one above.
theorem eq_of_parents (hapart : Apart level level') (hlength : level.length = level'.length)
    (h : parents level = parents level') : level = level' := by
  rcases padded_of_parents hapart (h ▸ .refl _) with hpadded | hpadded
  · exact hpadded.eq_of_length hlength
  · exact (hpadded.eq_of_length hlength.symm).symm

-- Lists of one length pass through the same number of levels, so the comparison never leaves one
-- of them behind, and no leaf has to be told from an inner node.
theorem eq_of_root (hapart : Apart level level') (hlength : level.length = level'.length)
    (hroot : root level = root level') : level = level' := by
  induction level using root.induct generalizing level' with
  | case1 => exact (List.eq_nil_of_length_eq_zero hlength.symm).symm
  | case2 leaf =>
      obtain ⟨leaf', rfl⟩ := List.length_eq_one_iff.mp hlength.symm
      exact eq_of_parents hapart hlength (by simpa [root, parents] using hroot)
  | case3 left right =>
      obtain ⟨left', right', rfl⟩ := List.length_eq_two.mp hlength.symm
      exact eq_of_parents hapart hlength (by simpa [root, parents] using hroot)
  | case4 a b c rest ih =>
      obtain ⟨a', b', c', rest', rfl⟩ : ∃ a' b' c' rest', level' = a' :: b' :: c' :: rest' := by
        rcases level' with _ | ⟨a', _ | ⟨b', _ | ⟨c', rest'⟩⟩⟩
        · simp at hlength
        · simp at hlength
        · simp at hlength
        · exact ⟨a', b', c', rest', rfl⟩
      have hlevels : ∀ a b c rest, levels (a :: b :: c :: rest) =
          (a :: b :: c :: rest) :: levels (parents (a :: b :: c :: rest)) :=
        fun _ _ _ _ => by rw [levels]
      rw [root, root] at hroot
      refine eq_of_parents hapart hlength (ih (hapart.parents (hlevels ..) (hlevels ..)) ?_ hroot)
      rw [length_parents, length_parents, hlength]

-- The strings hashed for a root are two digests each.
theorem eq_or_collides_of_root (hlength : level.length = level'.length)
    (hroot : root level = root level') :
    (∀ bytes ∈ hashed level ++ hashed level', bytes.length = 64) ∧
      (level = level' ∨ Digest.Collides (hashed level ++ hashed level')) := by
  refine ⟨fun bytes h => ?_, or_iff_not_imp_right.mpr fun hseparate => ?_⟩
  · exact (List.mem_append.mp h).elim length_of_mem_hashed length_of_mem_hashed
  · exact eq_of_root (apart_of_injOn (Digest.injOn_of hseparate)) hlength hroot

-- Five leaves, so that the first two levels are padded.
def palindrome : List Digest :=
  [.zero, node .zero .zero, .of [], node .zero .zero, .zero]

theorem eq_or_collides_of_root_palindrome :
    palindrome.length = palindrome.reverse.length ∧ root palindrome = root palindrome.reverse ∧
      (∀ bytes ∈ hashed palindrome ++ hashed palindrome.reverse, bytes.length = 64) ∧
      (palindrome = palindrome.reverse ∨
        Digest.Collides (hashed palindrome ++ hashed palindrome.reverse)) := by
  have hlength : palindrome.length = palindrome.reverse.length := rfl
  have hroot : root palindrome = root palindrome.reverse := rfl
  exact ⟨hlength, hroot, eq_or_collides_of_root hlength hroot⟩

end Merkle

end QuorumLedger
