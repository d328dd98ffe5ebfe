namespace QuorumLedger.Decimal

-- A positive rational number.
structure Ratio where
  num : Nat
  den : Nat

-- `m · 2 ^ q`.
def Ratio.ofBinary (m : Nat) (q : Int) : Ratio :=
  if 0 ≤ q then ⟨m * Nat.pow 2 q.toNat, 1⟩ else ⟨m, Nat.pow 2 (-q).toNat⟩

-- The quotient by a power of ten.
def Ratio.scale (x : Ratio) (p : Int) : Ratio :=
  if 0 ≤ p then ⟨x.num, x.den * Nat.pow 10 p.toNat⟩
  else ⟨x.num * Nat.pow 10 (-p).toNat, x.den⟩

-- The place of the first digit of a number below one, as a count of places after the point.
def leadingPlace (x : Ratio) : (bound : Nat) → Nat → Nat
  | 0, place => place
  | bound + 1, place =>
    if x.den ≤ x.num * Nat.pow 10 place then place else leadingPlace x bound (place + 1)

-- The exponent of the power of ten at or below a number.
def exponentOf (x : Ratio) : Int :=
  if x.den ≤ x.num then (Nat.toDigits 10 (x.num / x.den)).length - 1
  else -(leadingPlace x 400 1 : Nat)

-- The decimal digits and the power of ten of their unit.
structure Digits where
  digits : Nat
  unit : Int

-- Whether `d` units lie in the interval of numbers that round to the float, whose ends count when
-- `closed`. The ends are given in fourths of the float's own unit.
def rounds (d : Nat) (unit : Int) (low high : Nat) (q : Int) (closed : Bool) : Bool :=
  let a := (Ratio.ofBinary low (q - 2)).scale unit
  let b := (Ratio.ofBinary high (q - 2)).scale unit
  if closed then a.num ≤ d * a.den && d * b.den ≤ b.num
  else a.num < d * a.den && d * b.den < b.num

-- The point of a grid that is nearest to the float, if one rounds to it.
def onGrid (m : Nat) (q : Int) (low high : Nat) (unit : Int) : Option Digits :=
  let x := (Ratio.ofBinary m q).scale unit
  let below := x.num / x.den
  let closed := m % 2 = 0
  let hitBelow := 0 < below && rounds below unit low high q closed
  let hitAbove := rounds (below + 1) unit low high q closed
  -- twice the distance from the point below, less the distance between the points
  let nearBelow := 2 * (x.num % x.den) ≤ x.den
  if hitBelow && (nearBelow || !hitAbove) then some ⟨below, unit⟩
  else if hitAbove then some ⟨below + 1, unit⟩
  else none

def search (m : Nat) (q : Int) (low high : Nat) (top : Int) : (left count : Nat) → Digits
  | 0, _ => ⟨m, q⟩
  | left + 1, count =>
    match onGrid m q low high (top - count) with
    | some d => d
    | none => search m q low high top left (count + 1)

-- The fewest digits that round to `m · 2 ^ q`. Below a power of two the floats lie closer together.
def shortest (m : Nat) (q : Int) : Digits :=
  let low := if m = Nat.pow 2 52 && -1074 < q then 4 * m - 1 else 4 * m - 2
  search m q low (4 * m + 2) (exponentOf (Ratio.ofBinary m q)) 17 0

-- Digits without zeros at their end.
def trimZeros : Nat → Digits → Digits
  | 0, d => d
  | bound + 1, d =>
    if d.digits % 10 = 0 && d.digits ≠ 0 then trimZeros bound ⟨d.digits / 10, d.unit + 1⟩ else d

-- Positional from a ten-thousandth up to ten to the sixteenth, with at least one place after the
-- point; with an exponent otherwise.
def textOfDigits (d : Digits) : String :=
  let ds := Nat.toDigits 10 d.digits
  let top : Int := d.unit + ds.length - 1
  if -4 ≤ top ∧ top < 16 then
    if 0 ≤ d.unit then String.ofList (ds ++ List.replicate d.unit.toNat '0') ++ ".0"
    else
      let places := (-d.unit).toNat
      let padded := List.replicate (places + 1 - ds.length) '0' ++ ds
      let whole := padded.take (padded.length - places)
      String.ofList whole ++ "." ++ String.ofList (padded.drop (padded.length - places))
  else
    let tail := if ds.length = 1 then [] else '.' :: ds.drop 1
    String.ofList (ds.take 1 ++ tail) ++ "e" ++ toString top

-- The shortest text that reads back as the same float.
def text (x : Float) : String :=
  let bits := x.toBits.toNat
  let sign := if bits / Nat.pow 2 63 = 1 then "-" else ""
  let field := bits / Nat.pow 2 52 % Nat.pow 2 11
  let low := bits % Nat.pow 2 52
  if field = 2047 then if low = 0 then sign ++ "inf" else "NaN"
  else if field = 0 && low = 0 then sign ++ "0.0"
  else
    let d := if field = 0 then shortest low (-1074)
      else shortest (Nat.pow 2 52 + low) (Int.ofNat field - 1075)
    sign ++ textOfDigits (trimZeros 20 d)

end QuorumLedger.Decimal
