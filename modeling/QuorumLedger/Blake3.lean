import QuorumLedger.Bytes

namespace QuorumLedger.Blake3

-- A chaining value.
structure Chaining where
  w0 : UInt32
  w1 : UInt32
  w2 : UInt32
  w3 : UInt32
  w4 : UInt32
  w5 : UInt32
  w6 : UInt32
  w7 : UInt32

-- Sixteen words: a message block, or the state while it is mixed in.
structure Words where
  w0 : UInt32
  w1 : UInt32
  w2 : UInt32
  w3 : UInt32
  w4 : UInt32
  w5 : UInt32
  w6 : UInt32
  w7 : UInt32
  w8 : UInt32
  w9 : UInt32
  w10 : UInt32
  w11 : UInt32
  w12 : UInt32
  w13 : UInt32
  w14 : UInt32
  w15 : UInt32

def initial : Chaining :=
  ⟨0x6A09E667, 0xBB67AE85, 0x3C6EF372, 0xA54FF53A, 0x510E527F, 0x9B05688C, 0x1F83D9AB, 0x5BE0CD19⟩

def chunkStart : UInt32 := 1
def chunkEnd : UInt32 := 2
def parentNode : UInt32 := 4
def rootNode : UInt32 := 8

@[inline]
def rotateRight (x n : UInt32) : UInt32 :=
  (x >>> n) ||| (x <<< (32 - n))

-- Mixes two message words into a column or a diagonal of the state.
@[inline]
def mix (a b c d x y : UInt32) : UInt32 × UInt32 × UInt32 × UInt32 :=
  let a := a + b + x
  let d := rotateRight (d ^^^ a) 16
  let c := c + d
  let b := rotateRight (b ^^^ c) 12
  let a := a + b + y
  let d := rotateRight (d ^^^ a) 8
  let c := c + d
  let b := rotateRight (b ^^^ c) 7
  (a, b, c, d)

-- Mixes the columns and then the diagonals.
def round (s m : Words) : Words :=
  let (a0, b0, c0, d0) := mix s.w0 s.w4 s.w8 s.w12 m.w0 m.w1
  let (a1, b1, c1, d1) := mix s.w1 s.w5 s.w9 s.w13 m.w2 m.w3
  let (a2, b2, c2, d2) := mix s.w2 s.w6 s.w10 s.w14 m.w4 m.w5
  let (a3, b3, c3, d3) := mix s.w3 s.w7 s.w11 s.w15 m.w6 m.w7
  let (a0, b1, c2, d3) := mix a0 b1 c2 d3 m.w8 m.w9
  let (a1, b2, c3, d0) := mix a1 b2 c3 d0 m.w10 m.w11
  let (a2, b3, c0, d1) := mix a2 b3 c0 d1 m.w12 m.w13
  let (a3, b0, c1, d2) := mix a3 b0 c1 d2 m.w14 m.w15
  ⟨a0, a1, a2, a3, b0, b1, b2, b3, c0, c1, c2, c3, d0, d1, d2, d3⟩

-- The order in which the next round takes the message words.
def Words.permute (m : Words) : Words :=
  ⟨m.w2, m.w6, m.w3, m.w10, m.w7, m.w0, m.w4, m.w13,
    m.w1, m.w11, m.w12, m.w5, m.w9, m.w14, m.w15, m.w8⟩

def rounds : Nat → Words → Words → Words
  | 0, s, _ => s
  | n + 1, s, m => rounds n (round s m) m.permute

-- Seven rounds over the chaining value, the block counter, the block's length and the flags.
def compress (h : Chaining) (m : Words) (counter : UInt64) (size flags : UInt32) : Chaining :=
  let s := rounds 7
    ⟨h.w0, h.w1, h.w2, h.w3, h.w4, h.w5, h.w6, h.w7,
      initial.w0, initial.w1, initial.w2, initial.w3,
      counter.toUInt32, (counter >>> 32).toUInt32, size, flags⟩ m
  ⟨s.w0 ^^^ s.w8, s.w1 ^^^ s.w9, s.w2 ^^^ s.w10, s.w3 ^^^ s.w11,
    s.w4 ^^^ s.w12, s.w5 ^^^ s.w13, s.w6 ^^^ s.w14, s.w7 ^^^ s.w15⟩

-- A byte of the input, zero after its end.
@[inline]
def byteAt (input : ByteArray) (i : Nat) : UInt32 :=
  if h : i < input.size then (input[i]).toUInt32 else 0

@[inline]
def wordAt (input : ByteArray) (i : Nat) : UInt32 :=
  byteAt input i ||| (byteAt input (i + 1) <<< 8) ||| (byteAt input (i + 2) <<< 16) |||
    (byteAt input (i + 3) <<< 24)

def wordsAt (input : ByteArray) (i : Nat) : Words :=
  ⟨wordAt input i, wordAt input (i + 4), wordAt input (i + 8), wordAt input (i + 12),
    wordAt input (i + 16), wordAt input (i + 20), wordAt input (i + 24), wordAt input (i + 28),
    wordAt input (i + 32), wordAt input (i + 36), wordAt input (i + 40), wordAt input (i + 44),
    wordAt input (i + 48), wordAt input (i + 52), wordAt input (i + 56), wordAt input (i + 60)⟩

-- Folds the blocks of the chunk that covers `size` bytes from `start`; the last block carries
-- `final` besides the mark of a chunk's end.
def chunkFrom (input : ByteArray) (counter : UInt64) (final : UInt32)
    (start size : Nat) (first : UInt32) (h : Chaining) : Chaining :=
  if size ≤ 64 then
    compress h (wordsAt input start) counter (UInt32.ofNat size) (first ||| chunkEnd ||| final)
  else
    chunkFrom input counter final (start + 64) (size - 64) 0
      (compress h (wordsAt input start) counter 64 first)
termination_by size

def join (left right : Chaining) (final : UInt32) : Chaining :=
  compress initial
    ⟨left.w0, left.w1, left.w2, left.w3, left.w4, left.w5, left.w6, left.w7,
      right.w0, right.w1, right.w2, right.w3, right.w4, right.w5, right.w6, right.w7⟩
    0 64 (parentNode ||| final)

-- The largest power of two that is at most `(size - 1) / 1024`, in bytes: the left subtree.
def leftSize (size : Nat) : Nat :=
  1024 * Nat.pow 2 (Nat.log2 ((size - 1) / 1024))

theorem leftSize_pos (size : Nat) : 0 < leftSize size := by
  have hpow := Nat.two_pow_pos (Nat.log2 ((size - 1) / 1024))
  rw [leftSize, Nat.pow_eq]
  omega

theorem leftSize_lt {size : Nat} (h : 1024 < size) : leftSize size < size := by
  have hne : (size - 1) / 1024 ≠ 0 := by omega
  have hlog := Nat.log2_self_le hne
  rw [leftSize, Nat.pow_eq]
  omega

-- Chunks are the leaves of a binary tree whose left subtrees are the largest complete ones.
def tree (input : ByteArray) (final : UInt32) (start size : Nat) : Chaining :=
  if _h : size ≤ 1024 then
    chunkFrom input (UInt64.ofNat (start / 1024)) final start size chunkStart initial
  else
    join (tree input 0 start (leftSize size))
      (tree input 0 (start + leftSize size) (size - leftSize size)) final
termination_by size
decreasing_by
  · exact leftSize_lt (by omega)
  · have := leftSize_pos size
    omega

-- The plain mode: no key, and 32 bytes of output.
def hash (input : ByteArray) : Bytes32 :=
  let h := tree input rootNode 0 input.size
  Bytes32.ofWords h.w0 h.w1 h.w2 h.w3 h.w4 h.w5 h.w6 h.w7

end QuorumLedger.Blake3
