namespace QuorumLedger.Decimal

inductive IntegerFault where
  | empty
  | invalidDigit
  | tooLarge
  deriving DecidableEq

def IntegerFault.message : IntegerFault → String
  | .empty => "cannot parse integer from empty string"
  | .invalidDigit => "invalid digit found in string"
  | .tooLarge => "number too large to fit in target type"

-- Digits are taken one by one, so that the first fault is the one reported.
def wholeFrom (limit : Nat) : Nat → List Char → Except IntegerFault Nat
  | n, [] => .ok n
  | n, c :: rest =>
    if c.isDigit then
      let n := 10 * n + (c.toNat - 48)
      if n < limit then wholeFrom limit n rest else .error .tooLarge
    else .error .invalidDigit

-- A whole number of 64 bits; a plus sign may come first.
def whole (cs : List Char) : Except IntegerFault UInt64 :=
  match cs with
  | [] => .error .empty
  | ['+'] => .error .invalidDigit
  | '+' :: rest => (wholeFrom UInt64.size 0 rest).map UInt64.ofNat
  | _ => (wholeFrom UInt64.size 0 cs).map UInt64.ofNat

-- The float nearest to `mantissa · 10 ^ exponent`.
def toFloat (mantissa : Nat) (exponent : Int) : Float :=
  let size : Int := (Nat.toDigits 10 mantissa).length
  if mantissa = 0 || size + exponent < -400 then 0
  else if 400 < size + exponent then 1.0 / 0.0
  else if 0 ≤ exponent then Float.ofScientific (mantissa * Nat.pow 10 exponent.toNat) false 0
  else Float.ofScientific mantissa true (-exponent).toNat

def digitsValue (ds : List Char) : Nat :=
  ds.foldl (fun n c => 10 * n + (c.toNat - 48)) 0

-- The exponent at the end of a float; none is zero.
def exponent? : List Char → Option Int
  | [] => some 0
  | e :: rest =>
    if e = 'e' || e = 'E' then
      let (negative, ds) :=
        match rest with
        | '-' :: ds => (true, ds)
        | '+' :: ds => (false, ds)
        | ds => (false, ds)
      if ds.isEmpty || !ds.all Char.isDigit then none
      else some (if negative then -(digitsValue ds : Int) else digitsValue ds)
    else none

def unsigned? (cs : List Char) : Option Float :=
  let lowered := cs.map Char.toLower
  if lowered = "inf".toList || lowered = "infinity".toList then some (1.0 / 0.0)
  else if lowered = "nan".toList then some (0.0 / 0.0)
  else
    let wholePart := cs.takeWhile Char.isDigit
    let rest := cs.dropWhile Char.isDigit
    let (places, rest) :=
      match rest with
      | '.' :: rest => (rest.takeWhile Char.isDigit, rest.dropWhile Char.isDigit)
      | rest => ([], rest)
    if wholePart.isEmpty && places.isEmpty then none
    else
      (exponent? rest).map fun e =>
        toFloat (digitsValue (wholePart ++ places)) (e - places.length)

def float? : List Char → Option Float
  | '-' :: rest => (unsigned? rest).map fun x => -x
  | '+' :: rest => unsigned? rest
  | cs => unsigned? cs

end QuorumLedger.Decimal
