import QuorumLedger.Proofs.Wire.Reading

namespace QuorumLedger

namespace Bytes

theorem toNat_lt (bytes : Bytes) : toNat bytes < Nat.pow 256 bytes.length := by
  rw [Nat.pow_eq]
  induction bytes with
  | nil => decide
  | cons b rest ih =>
      have hb := b.toNat_lt
      rw [toNat, List.length_cons, Nat.pow_succ']
      omega

theorem littleEndian_toNat (bytes : Bytes) : littleEndian bytes.length (toNat bytes) = bytes := by
  induction bytes with
  | nil => rfl
  | cons b rest ih =>
      have hb := b.toNat_lt
      have hlow : UInt8.ofNat (b.toNat + 256 * toNat rest) = b := by
        rw [← UInt8.toNat_inj, UInt8.toNat_ofNat']
        omega
      have hhigh : (b.toNat + 256 * toNat rest) / 256 = toNat rest := by omega
      rw [List.length_cons, toNat, littleEndian, hlow, hhigh, ih]

end Bytes

namespace Wire

variable {α β : Type}

abbrev Form (α : Type) := α → Bytes → Prop

-- Fields one after the other.
def InOrder : List (Bytes → Prop) → Bytes → Prop
  | [], bytes => bytes = []
  | field :: rest, bytes => ∃ front tail, bytes = front ++ tail ∧ field front ∧ InOrder rest tail

theorem inOrder_singleton {field : Bytes → Prop} {bytes : Bytes} :
    InOrder [field] bytes ↔ field bytes := by
  constructor
  · rintro ⟨front, _, rfl, hfield, rfl⟩
    rwa [List.append_nil]
  · intro h
    exact ⟨bytes, [], (List.append_nil bytes).symm, h, rfl⟩

namespace Form

-- The tags that announce a longer number, with how many bytes it then has.
def longer : List (UInt8 × Nat) :=
  [(251, 2), (252, 4), (253, 8)]

-- A number within a width: a byte of its own, or a tag and bytes that the width has room for.
inductive Number (width : Nat) : Form Nat
  | byte {n : Nat} (small : n ≤ 250) : Number width n [UInt8.ofNat n]
  | tagged {tag : UInt8} {size n : Nat} (known : (tag, size) ∈ longer) (fits : size ≤ width)
      (holds : n < Nat.pow 256 size) : Number width n (tag :: Bytes.littleEndian size n)

def bytes32 : Form Bytes32 :=
  fun b bytes => bytes = b.toList

-- A byte that tells whether the value is there, and then the value.
def optional (form : Form α) : Form (Option α)
  | none => fun bytes => bytes = [0]
  | some a => InOrder [(· = [1]), form a]

-- The number of values, and then the values.
def list (form : Form α) : Form (List α) :=
  fun xs => InOrder (Number 8 xs.length :: xs.map form)

end Form

namespace Reader

-- From bytes that start with a form of a value the reader takes just that, and it takes nothing
-- else.
structure Reads (r : Reader α) (form : Form α) : Prop where
  sound : ∀ bytes a rest, r bytes = .ok (a, rest) → ∃ front, bytes = front ++ rest ∧ form a front
  complete : ∀ front a rest, form a front → r (front ++ rest) = .ok (a, rest)

theorem exists_of_bind_eq_ok {r : Reader α} {f : α → Reader β} {bytes rest : Bytes} {b : β}
    (h : (r >>= f) bytes = .ok (b, rest)) :
    ∃ a tail, r bytes = .ok (a, tail) ∧ f a tail = .ok (b, rest) := by
  cases hr : r bytes with
  | error e =>
      rw [bind_of_error hr] at h
      cases h
  | ok result =>
      obtain ⟨a, tail⟩ := result
      rw [bind_of_ok hr] at h
      exact ⟨a, tail, rfl, h⟩

namespace Reads

variable {r : Reader α} {f : α → Reader β} {form form' : Form α}

theorem eq_ok_iff (h : r.Reads form) {bytes rest : Bytes} {a : α} :
    r bytes = .ok (a, rest) ↔ ∃ front, bytes = front ++ rest ∧ form a front := by
  refine ⟨h.sound bytes a rest, ?_⟩
  rintro ⟨front, rfl, ha⟩
  exact h.complete front a rest ha

theorem of_iff (h : r.Reads form) (hforms : ∀ a bytes, form a bytes ↔ form' a bytes) :
    r.Reads form' where
  sound bytes a rest hr := by
    obtain ⟨front, hfront, ha⟩ := h.sound bytes a rest hr
    exact ⟨front, hfront, (hforms a front).mp ha⟩
  complete front a rest ha := h.complete front a rest ((hforms a front).mpr ha)

theorem bind {next : α → Form β} (h : r.Reads form)
    (hf : ∀ a front, form a front → (f a).Reads (next a)) :
    (r >>= f).Reads fun b bytes =>
      ∃ a front tail, bytes = front ++ tail ∧ form a front ∧ next a b tail where
  sound bytes b rest hr := by
    obtain ⟨a, tail, ha, hb⟩ := exists_of_bind_eq_ok hr
    obtain ⟨front, rfl, hform⟩ := h.sound bytes a tail ha
    obtain ⟨middle, rfl, hnext⟩ := (hf a front hform).sound tail b rest hb
    exact ⟨front ++ middle, (List.append_assoc _ _ _).symm, a, front, middle, rfl, hform, hnext⟩
  complete bytes b rest hb := by
    obtain ⟨a, front, tail, rfl, hform, hnext⟩ := hb
    rw [List.append_assoc, bind_of_ok (h.complete front a _ hform)]
    exact (hf a front hform).complete tail b rest hnext

-- A field fixes one more part of what is read in the end. What was fixed by the fields before it is
-- carried along as what is known.
theorem field {known : β → Prop} {part : β → α} {fields : β → List (Bytes → Prop)}
    (h : r.Reads form)
    (hf : ∀ a front, form a front →
      (f a).Reads fun b bytes => (known b ∧ part b = a) ∧ InOrder (fields b) bytes) :
    (r >>= f).Reads fun b bytes => known b ∧ InOrder (form (part b) :: fields b) bytes := by
  refine (h.bind hf).of_iff fun b bytes => ⟨?_, ?_⟩
  · rintro ⟨a, front, tail, rfl, hform, ⟨hknown, rfl⟩, hfields⟩
    exact ⟨hknown, front, tail, rfl, hform, hfields⟩
  · rintro ⟨hknown, front, tail, rfl, hform, hfields⟩
    exact ⟨part b, front, tail, rfl, hform, ⟨hknown, rfl⟩, hfields⟩

end Reads

-- Nothing more is read once every part is known.
theorem reads_require {e : Except SignatureError α} {known : α → Prop}
    (h : ∀ a, known a ↔ e = .ok a) :
    (require e).Reads fun a bytes => known a ∧ InOrder [] bytes where
  sound bytes a rest hr := by
    cases e with
    | error cause => cases hr
    | ok a' =>
        obtain ⟨rfl, rfl⟩ := Prod.mk.inj (Except.ok.inj hr)
        exact ⟨[], rfl, (h a').mpr rfl, rfl⟩
  complete front a rest ha := by
    obtain ⟨hknown, rfl⟩ := ha
    rw [(h a).mp hknown]
    rfl

theorem reads_pure {value : α} {known : α → Prop} (h : known value)
    (hunique : ∀ a, known a → value = a) :
    (pure value : Reader α).Reads fun a bytes => known a ∧ InOrder [] bytes :=
  reads_require (e := .ok value) fun a =>
    ⟨fun ha => congrArg Except.ok (hunique a ha), fun ha => Except.ok.inj ha ▸ h⟩

-- Nothing is known before the first field.
theorem Reads.of_fields {r : Reader α} {fields : α → List (Bytes → Prop)}
    (h : r.Reads fun a bytes => True ∧ InOrder (fields a) bytes) :
    r.Reads fun a => InOrder (fields a) :=
  h.of_iff fun _ _ => iff_of_eq (true_and _)

theorem Reads.map {r : Reader α} {form : Form α} {g : α → β} {part : β → α} (h : r.Reads form)
    (hpart : ∀ a front, form a front → ∀ b, part b = a ↔ g a = b) :
    (r >>= fun a => pure (g a)).Reads fun b => form (part b) := by
  refine (Reads.of_fields (h.field fun a front ha => reads_pure ?_ fun b hb => ?_)).of_iff
    fun b bytes => inOrder_singleton
  · exact ⟨trivial, (hpart a front ha _).mpr rfl⟩
  · exact (hpart a front ha b).mp hb.2

theorem reads_byte : byte.Reads fun b bytes => bytes = [b] where
  sound bytes b rest h := by
    cases bytes with
    | nil => cases h
    | cons b' tail =>
        obtain ⟨rfl, rfl⟩ := Prod.mk.inj (Except.ok.inj h)
        exact ⟨[b'], rfl, rfl⟩
  complete front b rest h := by
    rw [h]
    rfl

theorem reads_takeBytes (n : Nat) : (takeBytes n).Reads fun front bytes =>
    bytes = front ∧ front.length = n where
  sound bytes front rest h := by
    simp only [takeBytes] at h
    split at h
    · next hlength =>
        obtain ⟨rfl, rfl⟩ := Prod.mk.inj (Except.ok.inj h)
        exact ⟨bytes.take n, (List.take_append_drop n bytes).symm, rfl, hlength⟩
    · cases h
  complete bytes front rest h := by
    obtain ⟨rfl, rfl⟩ := h
    exact (takes_takeBytes bytes).whole rest

theorem reads_bytes32 : bytes32.Reads Form.bytes32 where
  sound bytes b rest h := by
    obtain ⟨front, tail, hfront, hb⟩ := exists_of_bind_eq_ok h
    obtain ⟨bytes, rfl, rfl, -⟩ := (reads_takeBytes 32).sound _ _ _ hfront
    cases hlist : Bytes32.ofList? bytes with
    | none =>
        simp only [hlist] at hb
        cases hb
    | some b' =>
        simp only [hlist] at hb
        obtain ⟨rfl, rfl⟩ := Prod.mk.inj (Except.ok.inj hb)
        exact ⟨bytes, rfl, (Bytes32.toList_of_ofList? hlist).symm⟩
  complete front b rest h := by
    rw [h]
    exact (takes_bytes32 b).whole rest

theorem numberFrom_cases (width : Nat) (tag : UInt8) :
    (tag.toNat ≤ 250 ∧ numberFrom width tag = pure tag.toNat) ∨
      (∃ size, (tag, size) ∈ Form.longer ∧ size ≤ width ∧ numberFrom width tag = fixed size) ∨
      numberFrom width tag = fail .malformed := by
  unfold numberFrom
  split_ifs with hsmall htwo hfour height
  · exact .inl ⟨hsmall, rfl⟩
  · exact .inr (.inl ⟨2, by simp [Form.longer, htwo.1], htwo.2, rfl⟩)
  · exact .inr (.inl ⟨4, by simp [Form.longer, hfour.1], hfour.2, rfl⟩)
  · exact .inr (.inl ⟨8, by simp [Form.longer, height.1], height.2, rfl⟩)
  · exact .inr (.inr rfl)

theorem numberFrom_of_mem {width size : Nat} {tag : UInt8} (hknown : (tag, size) ∈ Form.longer)
    (hfits : size ≤ width) : numberFrom width tag = fixed size := by
  simp only [Form.longer, List.mem_cons, Prod.mk.injEq, List.not_mem_nil, or_false] at hknown
  rcases hknown with ⟨rfl, rfl⟩ | ⟨rfl, rfl⟩ | ⟨rfl, rfl⟩
  · simp [numberFrom, hfits]
  · simp [numberFrom, hfits]
  · simp [numberFrom, hfits]

theorem reads_fixed (size : Nat) : (fixed size).Reads fun n bytes =>
    n < Nat.pow 256 size ∧ bytes = Bytes.littleEndian size n where
  sound bytes n rest h := by
    obtain ⟨front, tail, hfront, hn⟩ := exists_of_bind_eq_ok h
    obtain ⟨bytes, rfl, rfl, rfl⟩ := (reads_takeBytes size).sound _ _ _ hfront
    obtain ⟨rfl, rfl⟩ := Prod.mk.inj (Except.ok.inj hn)
    exact ⟨bytes, rfl, Bytes.toNat_lt bytes, (Bytes.littleEndian_toNat bytes).symm⟩
  complete front n rest h := by
    obtain ⟨hn, rfl⟩ := h
    exact (takes_fixed hn).whole rest

theorem reads_number (width : Nat) : (number width).Reads (Form.Number width) where
  sound bytes n rest h := by
    rw [number_eq] at h
    obtain ⟨tag, tail, htag, hn⟩ := exists_of_bind_eq_ok h
    obtain ⟨_, rfl, rfl⟩ := reads_byte.sound _ _ _ htag
    rcases numberFrom_cases width tag with ⟨hsmall, hfrom⟩ | ⟨size, hknown, hfits, hfrom⟩ | hfrom
    · rw [hfrom] at hn
      obtain ⟨rfl, rfl⟩ := Prod.mk.inj (Except.ok.inj hn)
      refine ⟨[tag], rfl, ?_⟩
      have hbyte : Form.Number width tag.toNat [UInt8.ofNat tag.toNat] := .byte hsmall
      rwa [UInt8.ofNat_toNat] at hbyte
    · rw [hfrom] at hn
      obtain ⟨front, rfl, hholds, rfl⟩ := (reads_fixed size).sound _ _ _ hn
      exact ⟨tag :: Bytes.littleEndian size n, rfl, .tagged hknown hfits hholds⟩
    · rw [hfrom] at hn
      cases hn
  complete front n rest h := by
    cases h with
    | byte small =>
        have hn : (UInt8.ofNat n).toNat = n :=
          UInt8.toNat_ofNat_of_lt' (Nat.lt_of_le_of_lt small (by decide))
        have hfrom : numberFrom width (UInt8.ofNat n) = pure n := by
          rw [numberFrom, hn, if_pos small]
        rw [number_eq, bind_of_ok ((takes_byte _).whole rest), hfrom]
        rfl
    | tagged known fits holds =>
        exact (takes_number_of_fixed (numberFrom_of_mem known fits) holds).whole rest

theorem reads_optional {r : Reader α} {form : Form α} (h : r.Reads form) :
    (optional r).Reads (Form.optional form) where
  sound bytes x rest hr := by
    obtain ⟨flag, tail, hflag, hx⟩ := exists_of_bind_eq_ok hr
    obtain ⟨_, rfl, rfl⟩ := reads_byte.sound _ _ _ hflag
    split at hx
    · next hzero =>
        obtain ⟨rfl, rfl⟩ := Prod.mk.inj (Except.ok.inj hx)
        exact ⟨[flag], rfl, by rw [hzero]; rfl⟩
    · split at hx
      · next hone =>
          obtain ⟨a, tail', ha, hx⟩ := exists_of_bind_eq_ok hx
          obtain ⟨rfl, rfl⟩ := Prod.mk.inj (Except.ok.inj hx)
          obtain ⟨front, rfl, hform⟩ := h.sound _ _ _ ha
          exact ⟨flag :: front, rfl, [flag], front, rfl, by rw [hone], front, [],
            (List.append_nil front).symm, hform, rfl⟩
      · cases hx
  complete front x rest hx := by
    cases x with
    | none =>
        rw [show front = [0] from hx]
        rfl
    | some a =>
        obtain ⟨_, _, rfl, rfl, front, _, rfl, hform, rfl⟩ := hx
        have ha := h.complete front a rest hform
        rw [List.append_nil]
        exact (bind_of_ok ha : (r >>= fun a => pure (some a)) (front ++ rest) = _)

theorem reads_items {r : Reader α} {form : Form α} (h : r.Reads form) (n : Nat) (read : List α) :
    (items r n read).Reads fun xs bytes =>
      ∃ later, later.length = n ∧ xs = read.reverse ++ later ∧ InOrder (later.map form) bytes := by
  induction n generalizing read with
  | zero =>
      have hread : (items r 0 read).Reads fun xs bytes => read.reverse = xs ∧ InOrder [] bytes :=
        reads_pure rfl fun _ h => h
      refine hread.of_iff fun xs bytes => ?_
      constructor
      · rintro ⟨rfl, hnone⟩
        exact ⟨[], rfl, (List.append_nil _).symm, hnone⟩
      · rintro ⟨later, hlength, rfl, hlater⟩
        obtain rfl := List.eq_nil_of_length_eq_zero hlength
        exact ⟨(List.append_nil _).symm, hlater⟩
  | succ n ih =>
      refine (h.bind fun a _ _ => ih (a :: read)).of_iff fun xs bytes => ?_
      constructor
      · rintro ⟨a, front, tail, rfl, hform, later, rfl, rfl, hlater⟩
        refine ⟨a :: later, rfl, ?_, front, tail, rfl, hform, hlater⟩
        rw [List.reverse_cons, List.append_assoc, List.singleton_append]
      · rintro ⟨_ | ⟨a, later⟩, hlength, rfl, hlater⟩
        · cases hlength
        · obtain ⟨front, tail, rfl, hform, htail⟩ := hlater
          refine ⟨a, front, tail, rfl, hform, later, Nat.succ.inj hlength, ?_, htail⟩
          rw [List.reverse_cons, List.append_assoc, List.singleton_append]

theorem reads_list {r : Reader α} {form : Form α} (h : r.Reads form) :
    (list r).Reads (Form.list form) := by
  refine ((reads_number 8).bind fun n _ _ => reads_items h n []).of_iff fun xs bytes => ?_
  constructor
  · rintro ⟨_, front, tail, rfl, hcount, later, rfl, rfl, hlater⟩
    exact ⟨front, tail, rfl, hcount, hlater⟩
  · rintro ⟨front, tail, rfl, hcount, hitems⟩
    exact ⟨xs.length, front, tail, rfl, hcount, xs, rfl, rfl, hitems⟩

-- Whether every value takes at least a byte.
def Advances (r : Reader α) : Prop :=
  ∀ bytes a rest, r bytes = .ok (a, rest) → rest.length < bytes.length

theorem Reads.advances {r : Reader α} {form : Form α} (h : r.Reads form)
    (hforms : ∀ a, ¬ form a []) : r.Advances := by
  intro bytes a rest hr
  obtain ⟨front, rfl, hform⟩ := h.sound bytes a rest hr
  have hpos : 0 < front.length := List.length_pos_of_ne_nil fun hnil => hforms a (hnil ▸ hform)
  rw [List.length_append]
  omega

theorem Advances.items_congr {item : Reader α} (h : item.Advances) {m n : Nat} {bytes : Bytes}
    (hm : bytes.length < m) (hn : bytes.length < n) (read : List α) :
    items item m read bytes = items item n read bytes := by
  induction m generalizing n bytes read with
  | zero => cases hm
  | succ m ih =>
      obtain ⟨n, rfl⟩ := Nat.exists_eq_succ_of_ne_zero (Nat.ne_zero_of_lt hn)
      simp only [items]
      cases hitem : item bytes with
      | error e => rw [bind_of_error hitem, bind_of_error hitem]
      | ok result =>
          obtain ⟨a, rest⟩ := result
          have hless := h bytes a rest hitem
          rw [bind_of_ok hitem, bind_of_ok hitem]
          exact ih (by omega) (by omega) (a :: read)

-- However many values are announced, no more are tried than there are bytes and one that fails.
theorem Advances.items_eq_items_min {item : Reader α} (h : item.Advances) (n : Nat)
    (read : List α) (bytes : Bytes) :
    items item n read bytes = items item (min n (bytes.length + 1)) read bytes := by
  by_cases hn : bytes.length < n
  · rw [Nat.min_eq_right hn]
    exact h.items_congr hn (Nat.lt_succ_self _) read
  · rw [Nat.min_eq_left (by omega)]

end Reader

end Wire

end QuorumLedger
