namespace QuorumLedger

-- A stream of 32-bit words with its state.
class WordSource (σ : Type) where
  next : σ → UInt32 × σ

namespace WordSource

variable {σ : Type} [WordSource σ]

-- Two words make one of 64 bits, the low one first.
def next64 (s : σ) : Nat × σ :=
  let (low, s) := next s
  let (high, s) := next s
  (low.toNat + UInt32.size * high.toNat, s)

def next32 (s : σ) : Nat × σ :=
  let (word, s) := next s
  (word.toNat, s)

-- A fraction in [0, 1) with 53 bits.
def fraction (s : σ) : Float × σ :=
  let (word, s) := next64 s
  (Float.ofNat (word / Nat.pow 2 11) / Float.ofNat (Nat.pow 2 53), s)

-- The largest low half that is accepted: a whole multiple of the range, less one.
def zone (width range : Nat) : Nat :=
  range * Nat.pow 2 (width - 1 - range.log2) - 1

-- A word times the range, cut at the word's width: the high half is the value, and a low half
-- beyond the zone is refused, which leaves every value equally likely. No result says that the
-- attempts ran out.
def below (draw : σ → Nat × σ) (width range : Nat) : (attempts : Nat) → σ → Option (Nat × σ)
  | 0, _ => none
  | attempts + 1, s =>
    let (word, s) := draw s
    let wide := word * range
    if wide % Nat.pow 2 width ≤ zone width range then
      some (wide / Nat.pow 2 width, s)
    else
      below draw width range attempts s

def below32 (range attempts : Nat) (s : σ) : Option (Nat × σ) :=
  below next32 32 range attempts s

def below64 (range attempts : Nat) (s : σ) : Option (Nat × σ) :=
  below next64 64 range attempts s

-- A number from `low` to `high`, both included. The interval of all 64-bit numbers needs no range:
-- any word will do.
def between64 (low high attempts : Nat) (s : σ) : Option (Nat × σ) :=
  let range := high - low + 1
  if range = UInt64.size then some (next64 s)
  else (below64 range attempts s).map fun (value, s) => (low + value, s)

-- Swaps each place, from the last to the second, with one at or before it.
def shuffleFrom {α : Type} (attempts : Nat) : Nat → Array α → σ → Option (Array α × σ)
  | 0, xs, s => some (xs, s)
  | i + 1, xs, s => do
    let (j, s) ← below32 (i + 2) attempts s
    shuffleFrom attempts i (xs.swapIfInBounds (i + 1) j) s

def shuffle {α : Type} (attempts : Nat) (xs : List α) (s : σ) : Option (List α × σ) := do
  let (xs, s) ← shuffleFrom attempts (xs.length - 1) xs.toArray s
  some (xs.toList, s)

end WordSource

end QuorumLedger
