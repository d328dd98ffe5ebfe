import QuorumLedger.Bytes
import QuorumLedger.Random.Source

namespace QuorumLedger

namespace ChaCha

-- Sixteen words in rows of four.
structure Block where
  a0 : UInt32
  a1 : UInt32
  a2 : UInt32
  a3 : UInt32
  b0 : UInt32
  b1 : UInt32
  b2 : UInt32
  b3 : UInt32
  c0 : UInt32
  c1 : UInt32
  c2 : UInt32
  c3 : UInt32
  d0 : UInt32
  d1 : UInt32
  d2 : UInt32
  d3 : UInt32

@[inline]
def rotateLeft (x n : UInt32) : UInt32 :=
  (x <<< n) ||| (x >>> (32 - n))

@[inline]
def quarter (a b c d : UInt32) : UInt32 × UInt32 × UInt32 × UInt32 :=
  let a := a + b
  let d := rotateLeft (d ^^^ a) 16
  let c := c + d
  let b := rotateLeft (b ^^^ c) 12
  let a := a + b
  let d := rotateLeft (d ^^^ a) 8
  let c := c + d
  let b := rotateLeft (b ^^^ c) 7
  (a, b, c, d)

-- A round on the columns and a round on the diagonals.
def doubleRound (x : Block) : Block :=
  let (a0, b0, c0, d0) := quarter x.a0 x.b0 x.c0 x.d0
  let (a1, b1, c1, d1) := quarter x.a1 x.b1 x.c1 x.d1
  let (a2, b2, c2, d2) := quarter x.a2 x.b2 x.c2 x.d2
  let (a3, b3, c3, d3) := quarter x.a3 x.b3 x.c3 x.d3
  let (a0, b1, c2, d3) := quarter a0 b1 c2 d3
  let (a1, b2, c3, d0) := quarter a1 b2 c3 d0
  let (a2, b3, c0, d1) := quarter a2 b3 c0 d1
  let (a3, b0, c1, d2) := quarter a3 b0 c1 d2
  ⟨a0, a1, a2, a3, b0, b1, b2, b3, c0, c1, c2, c3, d0, d1, d2, d3⟩

def Block.add (x y : Block) : Block :=
  ⟨x.a0 + y.a0, x.a1 + y.a1, x.a2 + y.a2, x.a3 + y.a3,
    x.b0 + y.b0, x.b1 + y.b1, x.b2 + y.b2, x.b3 + y.b3,
    x.c0 + y.c0, x.c1 + y.c1, x.c2 + y.c2, x.c3 + y.c3,
    x.d0 + y.d0, x.d1 + y.d1, x.d2 + y.d2, x.d3 + y.d3⟩

structure Key where
  k0 : UInt32
  k1 : UInt32
  k2 : UInt32
  k3 : UInt32
  k4 : UInt32
  k5 : UInt32
  k6 : UInt32
  k7 : UInt32

def input (key : Key) (counter : UInt64) : Block :=
  ⟨0x61707865, 0x3320646e, 0x79622d32, 0x6b206574,
    key.k0, key.k1, key.k2, key.k3, key.k4, key.k5, key.k6, key.k7,
    counter.toUInt32, (counter >>> 32).toUInt32, 0, 0⟩

def block (key : Key) (counter : UInt64) : Block :=
  let start := input key counter
  (doubleRound (doubleRound (doubleRound (doubleRound start)))).add start

end ChaCha

-- A position in the key stream: the number of the next block and what is left of the current one.
structure ChaCha where
  key : ChaCha.Key
  counter : UInt64
  pending : List UInt32

namespace ChaCha

def next (g : ChaCha) : UInt32 × ChaCha :=
  match g.pending with
  | word :: pending => (word, { g with pending })
  | [] =>
    let x := block g.key g.counter
    (x.a0, ⟨g.key, g.counter + 1,
      [x.a1, x.a2, x.a3, x.b0, x.b1, x.b2, x.b3, x.c0, x.c1, x.c2, x.c3, x.d0, x.d1, x.d2, x.d3]⟩)

instance : WordSource ChaCha :=
  ⟨next⟩

-- One step of the linear congruential generator that spreads a seed, and the word it puts out.
def spread (state : UInt64) : UInt32 × UInt64 :=
  let state := state * 6364136223846793005 + 11634580027462260723
  let mixed := (((state >>> 18) ^^^ state) >>> 27).toUInt32
  let turn := (state >>> 59).toUInt32
  ((mixed >>> turn) ||| (mixed <<< ((32 - turn) % 32)), state)

-- The stream of a 64-bit seed.
def ofSeed (seed : UInt64) : ChaCha :=
  let (k0, s) := spread seed
  let (k1, s) := spread s
  let (k2, s) := spread s
  let (k3, s) := spread s
  let (k4, s) := spread s
  let (k5, s) := spread s
  let (k6, s) := spread s
  let (k7, _) := spread s
  ⟨⟨k0, k1, k2, k3, k4, k5, k6, k7⟩, 0, []⟩

def keyWord (bytes : Bytes) (i : Nat) : UInt32 :=
  UInt32.ofNat (Bytes.toNat ((bytes.drop (4 * i)).take 4))

-- The stream of a 32-byte key.
def ofKey (key : Bytes32) : ChaCha :=
  let word := keyWord key.toList
  ⟨⟨word 0, word 1, word 2, word 3, word 4, word 5, word 6, word 7⟩, 0, []⟩

-- The next 32 bytes of the stream: eight words, each with its low byte first.
def draw32 (g : ChaCha) : Bytes32 × ChaCha :=
  let (w0, g) := g.next
  let (w1, g) := g.next
  let (w2, g) := g.next
  let (w3, g) := g.next
  let (w4, g) := g.next
  let (w5, g) := g.next
  let (w6, g) := g.next
  let (w7, g) := g.next
  (Bytes32.ofWords w0 w1 w2 w3 w4 w5 w6 w7, g)

end ChaCha

end QuorumLedger
