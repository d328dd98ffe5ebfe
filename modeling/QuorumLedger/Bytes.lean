namespace QuorumLedger

-- A string of bytes, first byte first.
abbrev Bytes := List UInt8

namespace Bytes

-- The `width` low bytes of `value`, least significant first.
def littleEndian : (width value : Nat) → Bytes
  | 0, _ => []
  | width + 1, value => UInt8.ofNat value :: littleEndian width (value / 256)

-- The number whose bytes are given, least significant first.
def toNat : Bytes → Nat
  | [] => 0
  | b :: rest => b.toNat + 256 * toNat rest

@[simp]
theorem length_littleEndian (width value : Nat) : (littleEndian width value).length = width := by
  induction width generalizing value with
  | zero => rfl
  | succ width ih => simp [littleEndian, ih]

theorem toNat_littleEndian (width value : Nat) :
    toNat (littleEndian width value) = value % Nat.pow 256 width := by
  rw [Nat.pow_eq]
  induction width generalizing value with
  | zero => simp [littleEndian, toNat, Nat.mod_one]
  | succ width ih =>
    rw [littleEndian, toNat, ih, Nat.pow_succ', Nat.mod_mul]
    simp

-- A number that fits its width is determined by its bytes.
theorem littleEndian_inj {width a b : Nat} (ha : a < Nat.pow 256 width)
    (hb : b < Nat.pow 256 width) (h : littleEndian width a = littleEndian width b) : a = b := by
  have hab := congrArg toNat h
  rwa [toNat_littleEndian, toNat_littleEndian, Nat.mod_eq_of_lt ha, Nat.mod_eq_of_lt hb] at hab

theorem littleEndian_inj32 {a b : UInt32}
    (h : littleEndian 4 a.toNat = littleEndian 4 b.toNat) : a = b :=
  UInt32.toNat_inj.mp (littleEndian_inj (by exact a.toNat_lt) (by exact b.toNat_lt) h)

theorem littleEndian_inj64 {a b : UInt64}
    (h : littleEndian 8 a.toNat = littleEndian 8 b.toNat) : a = b :=
  UInt64.toNat_inj.mp (littleEndian_inj (by exact a.toNat_lt) (by exact b.toNat_lt) h)

section FixedWidth

variable {α : Type} {put : α → Bytes} {width : Nat} (hwidth : ∀ a, (put a).length = width)

include hwidth

theorem length_flatMap (xs : List α) : (xs.flatMap put).length = width * xs.length := by
  simp only [List.length_flatMap, hwidth, List.map_const', List.sum_replicate_nat, Nat.mul_comm]

-- As many pieces of one width each are found again in their concatenation.
theorem flatMap_inj (hput : Function.Injective put) {xs ys : List α}
    (hlength : xs.length = ys.length) (h : xs.flatMap put = ys.flatMap put) : xs = ys := by
  induction xs generalizing ys with
  | nil => exact (List.eq_nil_of_length_eq_zero hlength.symm).symm
  | cons x xs ih =>
    cases ys with
    | nil => simp at hlength
    | cons y ys =>
      rw [List.flatMap_cons, List.flatMap_cons] at h
      obtain ⟨hhead, htail⟩ := List.append_inj h (by rw [hwidth, hwidth])
      rw [hput hhead, ih (Nat.succ.inj hlength) htail]

end FixedWidth

-- The bytes of a text in UTF-8.
def ofText (text : String) : Bytes :=
  text.toUTF8.data.toList

def hexDigit (value : Nat) : Char :=
  if value < 10 then Char.ofNat (48 + value) else Char.ofNat (87 + value)

-- Two lowercase hexadecimal digits for each byte.
def hex (bytes : Bytes) : String :=
  String.ofList (bytes.flatMap fun b => [hexDigit (b.toNat / 16), hexDigit (b.toNat % 16)])

-- The value of a hexadecimal digit of either case.
def hexValue? (c : Char) : Option Nat :=
  if c.isDigit then some (c.toNat - 48)
  else if 'a' ≤ c && c ≤ 'f' then some (c.toNat - 87)
  else if 'A' ≤ c && c ≤ 'F' then some (c.toNat - 55)
  else none

-- Reads two digits for each byte.
def ofHex? : List Char → Option Bytes
  | [] => some []
  | [_] => none
  | a :: b :: rest => do
    let high ← hexValue? a
    let low ← hexValue? b
    let bytes ← ofHex? rest
    pure (UInt8.ofNat (16 * high + low) :: bytes)

theorem hexValue?_hexDigit : ∀ v : Fin 16, hexValue? (hexDigit v) = some v.val := by
  decide

theorem ofHex?_hex (bytes : Bytes) : ofHex? bytes.hex.toList = some bytes := by
  rw [hex, String.toList_ofList]
  induction bytes with
  | nil => rfl
  | cons b rest ih =>
    have hhigh := hexValue?_hexDigit ⟨b.toNat / 16, by have := b.toNat_lt; omega⟩
    have hlow := hexValue?_hexDigit ⟨b.toNat % 16, Nat.mod_lt _ (by decide)⟩
    have hb : UInt8.ofNat (16 * (b.toNat / 16) + b.toNat % 16) = b := by
      rw [Nat.div_add_mod, UInt8.ofNat_toNat]
    simp only at hhigh hlow
    simp only [List.flatMap_cons, List.cons_append, List.nil_append, ofHex?, hhigh, hlow, ih]
    exact congrArg (fun x => some (x :: rest)) hb

end Bytes

-- A string of exactly 32 bytes: a digest, or a secret that a signature reveals.
structure Bytes32 where
  bytes : ByteArray
  size_bytes : bytes.size = 32

namespace Bytes32

instance : DecidableEq Bytes32 := fun a b =>
  match ByteArray.instDecidableEq a.bytes b.bytes with
  | isTrue h => isTrue (by cases a; cases b; cases h; rfl)
  | isFalse h => isFalse fun hab => h (congrArg bytes hab)

def zero : Bytes32 :=
  ⟨⟨Array.replicate 32 0⟩, by simp [ByteArray.size]⟩

instance : Inhabited Bytes32 :=
  ⟨zero⟩

def toList (b : Bytes32) : Bytes :=
  b.bytes.data.toList

-- Only a list of 32 bytes has a value.
def ofList? (bytes : Bytes) : Option Bytes32 :=
  if h : bytes.length = 32 then some ⟨⟨bytes.toArray⟩, by simpa [ByteArray.size] using h⟩ else none

@[simp]
theorem length_toList (b : Bytes32) : b.toList.length = 32 :=
  Array.length_toList.trans b.size_bytes

@[simp]
theorem ofList?_toList (b : Bytes32) : ofList? b.toList = some b := by
  unfold ofList?
  rw [dif_pos (length_toList b)]
  rfl

theorem toList_inj {a b : Bytes32} (h : a.toList = b.toList) : a = b := by
  have hab := congrArg ofList? h
  rw [ofList?_toList, ofList?_toList] at hab
  exact Option.some.inj hab

theorem toList_of_ofList? {bytes : Bytes} {b : Bytes32} (h : ofList? bytes = some b) :
    b.toList = bytes := by
  unfold ofList? at h
  split at h
  · cases h
    rfl
  · cases h

-- Appends a word, least significant byte first.
def pushWord (out : ByteArray) (w : UInt32) : ByteArray :=
  (((out.push w.toUInt8).push (w >>> 8).toUInt8).push (w >>> 16).toUInt8).push (w >>> 24).toUInt8

theorem size_pushWord (out : ByteArray) (w : UInt32) : (pushWord out w).size = out.size + 4 := by
  simp [pushWord]

-- Eight words in order.
def ofWords (w0 w1 w2 w3 w4 w5 w6 w7 : UInt32) : Bytes32 :=
  ⟨pushWord (pushWord (pushWord (pushWord (pushWord (pushWord (pushWord (pushWord
    (ByteArray.emptyWithCapacity 32) w0) w1) w2) w3) w4) w5) w6) w7, by
    have : (ByteArray.emptyWithCapacity 32).size = 0 := rfl
    simp only [size_pushWord, this]⟩

end Bytes32

end QuorumLedger
