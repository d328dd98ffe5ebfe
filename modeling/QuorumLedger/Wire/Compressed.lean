import QuorumLedger.Bytes

namespace QuorumLedger.Wire.Compressed

-- A length that goes on: bytes are added up to the first that is not 255.
def lengthFrom (total : Nat) : Bytes → Option (Nat × Bytes)
  | [] => none
  | b :: rest => if b = 255 then lengthFrom (total + 255) rest else some (total + b.toNat, rest)

-- A length of four bits, which goes on when all four are set.
def length (nibble : Nat) (bytes : Bytes) : Option (Nat × Bytes) :=
  if nibble = 15 then lengthFrom 15 bytes else some (nibble, bytes)

theorem lengthFrom_le {total n : Nat} {bytes rest : Bytes}
    (h : lengthFrom total bytes = some (n, rest)) : rest.length ≤ bytes.length := by
  induction bytes generalizing total with
  | nil => simp [lengthFrom] at h
  | cons b tail ih =>
    unfold lengthFrom at h
    split at h
    · exact Nat.le_succ_of_le (ih h)
    · cases h
      exact Nat.le_succ _

theorem length_le {nibble n : Nat} {bytes rest : Bytes}
    (h : length nibble bytes = some (n, rest)) : rest.length ≤ bytes.length := by
  unfold length at h
  split at h
  · exact lengthFrom_le h
  · cases h
    exact Nat.le_refl _

def append (out : ByteArray) : Bytes → ByteArray
  | [] => out
  | b :: rest => append (out.push b) rest

-- The byte that was put out so many bytes ago, and zero where there is none.
def byteBack (out : ByteArray) (offset : Nat) : UInt8 :=
  if h : out.size - offset < out.size then out[out.size - offset] else 0

-- A copy may run into the bytes that it puts out itself.
def copyBack (offset : Nat) : Nat → ByteArray → ByteArray
  | 0, out => out
  | n + 1, out => copyBack offset n (out.push (byteBack out offset))

-- Expands a block behind what was put out already, if it is well formed and stays within `limit`.
-- A block is a row of literals and copies, and ends with literals.
def expandFrom (limit : Nat) (out : ByteArray) (bytes : Bytes) : Option ByteArray :=
  match bytes with
  | [] => none
  | token :: bytes =>
    match _hlit : length (token.toNat / 16) bytes with
    | none => none
    | some (literals, bytes) =>
      let front := bytes.take literals
      if front.length < literals ∨ limit < out.size + literals then none
      else
        let out := append out front
        match _hrest : bytes.drop literals with
        | [] => some out
        | [_] => none
        | low :: high :: bytes =>
          let offset := low.toNat + 256 * high.toNat
          match _hcopy : length (token.toNat % 16) bytes with
          | none => none
          | some (more, bytes) =>
            if offset = 0 ∨ out.size < offset ∨ limit < out.size + more + 4 then none
            else expandFrom limit (copyBack offset (more + 4) out) bytes
termination_by bytes.length
decreasing_by
  have h₁ := length_le _hlit
  have h₂ := length_le _hcopy
  have h₃ := congrArg List.length _hrest
  simp only [List.length_drop, List.length_cons] at h₃ ⊢
  omega

-- The number that precedes a block bounds what it expands to.
def expand? (bytes : Bytes) : Option Bytes :=
  (expandFrom (Bytes.toNat (bytes.take 4)) ByteArray.empty (bytes.drop 4)).map (·.data.toList)

-- The bytes of a length beyond its first four bits.
def moreLength (n : Nat) : Bytes :=
  List.replicate (n / 255) 255 ++ [UInt8.ofNat (n % 255)]

-- A block of one sequence that holds everything as literals, behind the size.
def literal (bytes : Bytes) : Bytes :=
  let n := bytes.length
  Bytes.littleEndian 4 n ++
    (if n < 15 then UInt8.ofNat (16 * n) :: bytes
    else 240 :: (moreLength (n - 15) ++ bytes))

end QuorumLedger.Wire.Compressed
