namespace QuorumLedger.Text.Similarity

-- Takes the first free character equal to `c` among those numbered from `low` up to `high`.
def claim (c : Char) (low high : Nat) : (i : Nat) → List (Char × Bool) →
    Option (List (Char × Bool))
  | _, [] => none
  | i, (d, taken) :: rest =>
    if i < high && low ≤ i && !taken && c == d then some ((d, true) :: rest)
    else (claim c low high (i + 1) rest).map ((d, taken) :: ·)

-- The characters that find a match at most `reach` places away, and the other word with those marked
-- that were taken.
def claimAll (reach : Nat) : (i : Nat) → List Char → List (Char × Bool) →
    List Char × List (Char × Bool)
  | _, [], other => ([], other)
  | i, c :: rest, other =>
    match claim c (i - reach) (i + reach + 1) 0 other with
    | none => claimAll reach (i + 1) rest other
    | some other =>
      let (found, other) := claimAll reach (i + 1) rest other
      (c :: found, other)

-- The matches of two words, as each of them has them in order.
def found (a b : List Char) : List Char × List Char :=
  let reach := max a.length b.length / 2 - 1
  let (left, marked) := claimAll reach 0 a (b.map fun c => (c, false))
  (left, (marked.filter (·.2)).map (·.1))

-- The mean of three shares: of the matches in either word, and of those in order among them.
def similarity (a b : List Char) : Float :=
  let (left, right) := found a b
  let swaps := (left.zip right).countP (fun p => p.1 != p.2) / 2
  if a.isEmpty && b.isEmpty then 1
  else if left.isEmpty then 0
  else
    let matched := left.length.toFloat
    (matched / a.length.toFloat + matched / b.length.toFloat +
      (left.length - swaps).toFloat / matched) / 3

end QuorumLedger.Text.Similarity
