import Mathlib.Data.List.Basic
import QuorumLedger.Wire.Reader

namespace QuorumLedger.Wire

variable {α β : Type}

-- The number before a list counts its entries only if they are fewer than this.
abbrev sizeLimit : Nat := Nat.pow 256 8

-- From the bytes, and from whatever follows them, the reader takes the value and leaves what
-- follows. From less than the bytes it takes nothing.
structure Reader.Takes (r : Reader α) (bytes : Bytes) (a : α) : Prop where
  whole : ∀ rest, r (bytes ++ rest) = .ok (a, rest)
  cut : ∀ front, front <+: bytes → front ≠ bytes → r front = .error .malformed

namespace Reader

theorem bind_of_ok {r : Reader α} {f : α → Reader β} {bytes rest : Bytes} {a : α}
    (h : r bytes = .ok (a, rest)) : (r >>= f) bytes = f a rest := by
  simp only [bind, StateT.bind, h, Except.bind]

theorem bind_of_error {r : Reader α} {f : α → Reader β} {bytes : Bytes} {e : ReadError}
    (h : r bytes = .error e) : (r >>= f) bytes = .error e := by
  simp only [bind, StateT.bind, h, Except.bind]

theorem takes_pure (a : α) : (pure a : Reader α).Takes [] a where
  whole _ := rfl
  cut _ hfront hne := absurd (List.prefix_nil.mp hfront) hne

namespace Takes

variable {r : Reader α} {f : α → Reader β} {g : α → β} {xs ys : Bytes} {a : α} {b : β}

theorem bind (h : r.Takes xs a) (hf : (f a).Takes ys b) : (r >>= f).Takes (xs ++ ys) b where
  whole rest := by
    rw [List.append_assoc, bind_of_ok (h.whole _)]
    exact hf.whole rest
  cut front hfront hne := by
    -- the front ends within what the first reader needs, or behind it
    rcases List.prefix_or_prefix_of_prefix hfront (List.prefix_append xs ys) with hxs | hxs
    · by_cases heq : front = xs
      · subst heq
        have hys : ys ≠ [] := by
          rintro rfl
          exact hne (List.append_nil front).symm
        rw [← List.append_nil front, bind_of_ok (h.whole [])]
        exact hf.cut [] (List.prefix_append [] ys) hys.symm
      · exact bind_of_error (h.cut front hxs heq)
    · obtain ⟨rest, rfl⟩ := hxs
      rw [bind_of_ok (h.whole rest)]
      exact hf.cut rest ((List.prefix_append_right_inj xs).mp hfront)
        fun heq => hne (congrArg (xs ++ ·) heq)

-- What is done without reading any more.
theorem bind_nil (h : r.Takes xs a) (hf : (f a).Takes [] b) : (r >>= f).Takes xs b := by
  have hbind := h.bind hf
  rwa [List.append_nil] at hbind

theorem map (h : r.Takes xs a) : (r >>= fun a => pure (g a)).Takes xs (g a) :=
  h.bind_nil (takes_pure (g a))

end Takes

theorem takes_byte (b : UInt8) : byte.Takes [b] b where
  whole _ := rfl
  cut front hfront hne := by
    rcases List.prefix_cons_iff.mp hfront with rfl | ⟨rest, rfl, hrest⟩
    · rfl
    · exact absurd (congrArg (b :: ·) (List.prefix_nil.mp hrest)) hne

theorem takes_takeBytes (bytes : Bytes) : (takeBytes bytes.length).Takes bytes bytes where
  whole rest := by simp [takeBytes]
  cut front hfront hne := by
    have hlength : front.length < bytes.length :=
      Nat.lt_of_le_of_ne hfront.length_le fun h => hne (hfront.eq_of_length h)
    have hshort : (front.take bytes.length).length ≠ bytes.length := by
      rw [List.length_take]
      omega
    simp only [takeBytes, if_neg hshort]

theorem takes_fixed {width n : Nat} (h : n < Nat.pow 256 width) :
    (fixed width).Takes (Bytes.littleEndian width n) n := by
  have htake := takes_takeBytes (Bytes.littleEndian width n)
  rw [Bytes.length_littleEndian] at htake
  have hmap := htake.map (g := Bytes.toNat)
  rwa [Bytes.toNat_littleEndian, Nat.mod_eq_of_lt h] at hmap

theorem takes_bytes32 (b : Bytes32) : bytes32.Takes b.toList b := by
  have htake := takes_takeBytes b.toList
  rw [Bytes32.length_toList] at htake
  refine htake.bind_nil ?_
  rw [Bytes32.ofList?_toList]
  exact takes_pure b

-- What is read of a number behind its first byte.
def numberFrom (width : Nat) (tag : UInt8) : Reader Nat :=
  if tag.toNat ≤ 250 then pure tag.toNat
  else if tag = 251 ∧ 2 ≤ width then fixed 2
  else if tag = 252 ∧ 4 ≤ width then fixed 4
  else if tag = 253 ∧ 8 ≤ width then fixed 8
  else fail .malformed

theorem number_eq (width : Nat) : number width = byte >>= numberFrom width :=
  rfl

theorem takes_number_of_fixed {width size n : Nat} {tag : UInt8}
    (h : numberFrom width tag = fixed size) (hn : n < Nat.pow 256 size) :
    (number width).Takes (tag :: Bytes.littleEndian size n) n := by
  rw [number_eq]
  refine (takes_byte tag).bind ?_
  rw [h]
  exact takes_fixed hn

-- The widths are those of the types that hold numbers: two, four or eight bytes.
theorem takes_number {width n : Nat} (hwidth : width = 2 ∨ width = 4 ∨ width = 8)
    (h : n < Nat.pow 256 width) : (number width).Takes (putNumber n) n := by
  unfold putNumber
  split_ifs with hbyte hshort hlong
  · have hn : (UInt8.ofNat n).toNat = n :=
      UInt8.toNat_ofNat_of_lt' (Nat.lt_of_le_of_lt hbyte (by decide))
    have hfrom : numberFrom width (UInt8.ofNat n) = pure n := by
      rw [numberFrom, hn, if_pos hbyte]
    rw [number_eq]
    refine (takes_byte _).bind_nil ?_
    rw [hfrom]
    exact takes_pure n
  · refine takes_number_of_fixed ?_ hshort
    rw [numberFrom, if_neg (by decide), if_pos ⟨rfl, by omega⟩]
  · have hfour : 4 ≤ width := by
      rcases hwidth with rfl | rfl | rfl
      · exact absurd h hshort
      · omega
      · omega
    refine takes_number_of_fixed ?_ hlong
    rw [numberFrom, if_neg (by decide), if_neg (by simp), if_pos ⟨rfl, hfour⟩]
  · obtain rfl : width = 8 := by
      rcases hwidth with rfl | rfl | rfl
      · exact absurd h hshort
      · exact absurd h hlong
      · rfl
    exact takes_number_of_fixed rfl h

theorem takes_optional {r : Reader α} {put : α → Bytes} {x : Option α}
    (h : ∀ a, x = some a → r.Takes (put a) a) : (optional r).Takes (putOptional put x) x := by
  cases x with
  | none => exact (takes_byte 0).bind_nil (takes_pure none)
  | some a => exact (takes_byte 1).bind (h a rfl).map

theorem takes_items {r : Reader α} {put : α → Bytes} {xs : List α}
    (h : ∀ a ∈ xs, r.Takes (put a) a) (read : List α) :
    (items r xs.length read).Takes (xs.flatMap put) (read.reverse ++ xs) := by
  induction xs generalizing read with
  | nil =>
      rw [List.append_nil]
      exact takes_pure read.reverse
  | cons a rest ih =>
      rw [List.flatMap_cons]
      refine (h a List.mem_cons_self).bind ?_
      have hrest := ih (fun b hb => h b (List.mem_cons_of_mem a hb)) (a :: read)
      rwa [List.reverse_cons, List.append_assoc, List.singleton_append] at hrest

theorem takes_list {r : Reader α} {put : α → Bytes} {xs : List α} (hlength : xs.length < sizeLimit)
    (h : ∀ a ∈ xs, r.Takes (put a) a) :
    (list r).Takes (putList put xs) xs :=
  (takes_number (.inr (.inr rfl)) hlength).bind (takes_items h [])

theorem takes_require {e : Except SignatureError α} {a : α} (h : e = .ok a) :
    (require e).Takes [] a := by
  rw [h]
  exact takes_pure a

end Reader

theorem putNumber_ne_nil (n : Nat) : putNumber n ≠ [] := by
  unfold putNumber
  split_ifs <;> exact List.cons_ne_nil _ _

theorem length_le_length_flatMap {put : α → Bytes} (h : ∀ a, put a ≠ []) (xs : List α) :
    xs.length ≤ (xs.flatMap put).length := by
  induction xs with
  | nil => exact Nat.le_refl 0
  | cons a rest ih =>
      have hpos := List.length_pos_of_ne_nil (h a)
      rw [List.flatMap_cons, List.length_append, List.length_cons]
      omega

-- A list is written with at least a byte for each entry.
theorem length_le_length_putList {put : α → Bytes} (h : ∀ a, put a ≠ []) (xs : List α) :
    xs.length ≤ (putList put xs).length := by
  rw [putList, List.length_append]
  exact Nat.le_add_left_of_le (length_le_length_flatMap h xs)

end QuorumLedger.Wire
