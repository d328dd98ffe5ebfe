import QuorumLedger.Bytes
import QuorumLedger.Toml.Value

namespace QuorumLedger.Toml

-- What a reader found, in its longest form, and the characters after it.
abbrev Found (α : Type) := Option (α × List Char)

def isSpace (c : Char) : Bool :=
  c = ' ' || c = '\t'

def skipSpace (cs : List Char) : List Char :=
  cs.dropWhile isSpace

def newline : List Char → Option (List Char)
  | '\n' :: rest => some rest
  | '\r' :: '\n' :: rest => some rest
  | _ => none

-- A tab, or any character that is not a control character.
def isPrintable (c : Char) : Bool :=
  c = '\t' || (32 ≤ c.toNat && c.toNat ≠ 127)

def skipComment : List Char → List Char
  | '#' :: rest => rest.dropWhile isPrintable
  | cs => cs

-- The end of a line or of the document, after blanks and a comment.
def lineEnd (cs : List Char) : Option (List Char) :=
  match skipComment (skipSpace cs) with
  | [] => some []
  | cs => newline cs

-- Blanks and newlines.
def skipBlankLines : List Char → List Char
  | ' ' :: rest => skipBlankLines rest
  | '\t' :: rest => skipBlankLines rest
  | '\n' :: rest => skipBlankLines rest
  | '\r' :: '\n' :: rest => skipBlankLines rest
  | cs => cs

theorem length_skipBlankLines (cs : List Char) : (skipBlankLines cs).length ≤ cs.length := by
  fun_induction skipBlankLines cs with
  | case1 rest ih => exact Nat.le_succ_of_le ih
  | case2 rest ih => exact Nat.le_succ_of_le ih
  | case3 rest ih => exact Nat.le_succ_of_le ih
  | case4 rest ih => exact Nat.le_succ_of_le (Nat.le_succ_of_le ih)
  | case5 => exact Nat.le_refl _

theorem newline_length {cs rest : List Char} (h : newline cs = some rest) :
    rest.length < cs.length := by
  unfold newline at h
  split at h <;> cases h <;> simp only [List.length_cons] <;> omega

theorem skipComment_length (cs : List Char) : (skipComment cs).length ≤ cs.length := by
  unfold skipComment
  split
  · exact Nat.le_succ_of_le (List.dropWhile_sublist isPrintable).length_le
  · exact Nat.le_refl _

-- Blanks, newlines and comments; a comment has to end with a newline.
def skipFiller (cs : List Char) : List Char :=
  match _hb : skipBlankLines cs with
  | '#' :: after =>
    match _hn : newline (skipComment ('#' :: after)) with
    | some rest => skipFiller rest
    | none => '#' :: after
  | rest => rest
termination_by cs.length
decreasing_by
  have h₁ := newline_length _hn
  have h₂ := skipComment_length ('#' :: after)
  have h₃ := length_skipBlankLines cs
  rw [_hb] at h₃
  omega

def hexNumber (sofar : Nat) : List Char → Option Nat
  | [] => some sofar
  | c :: rest => (Bytes.hexValue? c).bind fun v => hexNumber (16 * sofar + v) rest

-- The character with the number that the next `n` hexadecimal digits give.
def numbered (n : Nat) (cs : List Char) : Found Char :=
  let digits := cs.take n
  if digits.length = n then
    match hexNumber 0 digits with
    | some v => if v.isValidChar then some (Char.ofNat v, cs.drop n) else none
    | none => none
  else none

-- What stands for a character after a backslash.
def escaped : List Char → Found Char
  | 'b' :: rest => some ('\x08', rest)
  | 't' :: rest => some ('\t', rest)
  | 'n' :: rest => some ('\n', rest)
  | 'f' :: rest => some ('\x0c', rest)
  | 'r' :: rest => some ('\r', rest)
  | '"' :: rest => some ('"', rest)
  | '\\' :: rest => some ('\\', rest)
  | 'u' :: rest => numbered 4 rest
  | 'U' :: rest => numbered 8 rest
  | _ => none

theorem numbered_length {n : Nat} {cs rest : List Char} {c : Char}
    (h : numbered n cs = some (c, rest)) : rest.length ≤ cs.length := by
  simp only [numbered] at h
  repeat' split at h
  all_goals cases h
  simp

theorem escaped_length {cs rest : List Char} {c : Char} (h : escaped cs = some (c, rest)) :
    rest.length < cs.length := by
  unfold escaped at h
  split at h
  case h_8 => exact Nat.lt_succ_of_le (numbered_length h)
  case h_9 => exact Nat.lt_succ_of_le (numbered_length h)
  all_goals cases h
  all_goals simp

-- The rest of a string in double quotes; what was read comes in reverse.
def basicFrom (read : List Char) (cs : List Char) : Found String :=
  match cs with
  | [] => none
  | '"' :: rest => some (String.ofList read.reverse, rest)
  | '\\' :: rest =>
    match _h : escaped rest with
    | some (c, rest') => basicFrom (c :: read) rest'
    | none => none
  | c :: rest => if isPrintable c then basicFrom (c :: read) rest else none
termination_by cs.length
decreasing_by
  · have := escaped_length _h
    simp only [List.length_cons]
    omega
  · simp

-- Up to two quotes may stand right before the three that end a string of several lines.
def closing (quote : Char) (read : List Char) : List Char → String × List Char
  | a :: b :: rest =>
    if a = quote && b = quote then (String.ofList (quote :: quote :: read).reverse, rest)
    else if a = quote then (String.ofList (quote :: read).reverse, b :: rest)
    else (String.ofList read.reverse, a :: b :: rest)
  | [a] =>
    if a = quote then (String.ofList (quote :: read).reverse, []) else (String.ofList read.reverse, [a])
  | [] => (String.ofList read.reverse, [])

-- A backslash at the end of a line takes blanks and newlines after it away.
def continued (cs : List Char) : Option (List Char) :=
  (newline (skipSpace cs)).map skipBlankLines

theorem skipSpace_length (cs : List Char) : (skipSpace cs).length ≤ cs.length :=
  (List.dropWhile_sublist isSpace).length_le

theorem continued_length {cs rest : List Char} (h : continued cs = some rest) :
    rest.length < cs.length := by
  unfold continued at h
  obtain ⟨mid, hmid, rfl⟩ := Option.map_eq_some_iff.mp h
  have h₁ := newline_length hmid
  have h₂ := skipSpace_length cs
  have h₃ := length_skipBlankLines mid
  omega

def linesFrom (read : List Char) (cs : List Char) : Found String :=
  match cs with
  | [] => none
  | '"' :: '"' :: '"' :: rest => some (closing '"' read rest)
  | '"' :: rest => linesFrom ('"' :: read) rest
  | '\\' :: rest =>
    match _hc : continued rest with
    | some rest' => linesFrom read rest'
    | none =>
      match _he : escaped rest with
      | some (c, rest') => linesFrom (c :: read) rest'
      | none => none
  | '\n' :: rest => linesFrom ('\n' :: read) rest
  | '\r' :: '\n' :: rest => linesFrom ('\n' :: read) rest
  | c :: rest => if isPrintable c then linesFrom (c :: read) rest else none
termination_by cs.length
decreasing_by
  · simp
  · have := continued_length _hc
    simp only [List.length_cons]
    omega
  · have := escaped_length _he
    simp only [List.length_cons]
    omega
  · simp
  · simp only [List.length_cons]
    omega
  · simp

-- The rest of a string in single quotes, where no character is escaped.
def literalFrom (read : List Char) : List Char → Found String
  | [] => none
  | '\'' :: rest => some (String.ofList read.reverse, rest)
  | c :: rest => if isPrintable c then literalFrom (c :: read) rest else none

def literalLinesFrom (read : List Char) : List Char → Found String
  | [] => none
  | '\'' :: '\'' :: '\'' :: rest => some (closing '\'' read rest)
  | '\n' :: rest => literalLinesFrom ('\n' :: read) rest
  | '\r' :: '\n' :: rest => literalLinesFrom ('\n' :: read) rest
  | c :: rest => if isPrintable c then literalLinesFrom (c :: read) rest else none

-- A newline right after the opening quotes does not count.
def skipFirstNewline (cs : List Char) : List Char :=
  (newline cs).getD cs

def string : List Char → Found String
  | '"' :: '"' :: '"' :: rest => linesFrom [] (skipFirstNewline rest)
  | '"' :: rest => basicFrom [] rest
  | '\'' :: '\'' :: '\'' :: rest => literalLinesFrom [] (skipFirstNewline rest)
  | '\'' :: rest => literalFrom [] rest
  | _ => none

def isBare (c : Char) : Bool :=
  c.isAlphanum || c = '_' || c = '-'

-- One part of a key, bare or as a string on one line.
def keyPart : List Char → Found String
  | '"' :: rest => basicFrom [] rest
  | '\'' :: rest => literalFrom [] rest
  | cs =>
    match cs.takeWhile isBare with
    | [] => none
    | part => some (String.ofList part, cs.dropWhile isBare)

-- The parts of a key, with blanks around each; the first argument bounds their number.
def keyPath : Nat → List Char → Found (List String)
  | 0, _ => none
  | bound + 1, cs =>
    match keyPart (skipSpace cs) with
    | none => none
    | some (part, rest) =>
      match skipSpace rest with
      | '.' :: rest => (keyPath bound rest).map fun (parts, rest) => (part :: parts, rest)
      | rest => some ([part], rest)

-- Digits, with single underscores between them.
def digits (isDigit : Char → Bool) : List Char → Found (List Char)
  | c :: '_' :: rest =>
    if isDigit c then (digits isDigit rest).map fun (ds, rest) => (c :: ds, rest) else none
  | c :: rest =>
    if isDigit c then
      match rest with
      | d :: _ =>
        if isDigit d then (digits isDigit rest).map fun (ds, rest) => (c :: ds, rest)
        else some ([c], rest)
      | [] => some ([c], [])
    else none
  | [] => none

-- A decimal number has no zero before its other digits.
def decimalDigits : List Char → Found (List Char)
  | '0' :: rest => some (['0'], rest)
  | cs => digits Char.isDigit cs

def isNegative : List Char → Bool
  | '-' :: _ => true
  | _ => false

def skipSign : List Char → List Char
  | '+' :: rest => rest
  | '-' :: rest => rest
  | cs => cs

def digitsValue (base : Nat) (ds : List Char) : Nat :=
  ds.foldl (fun n c => base * n + (Bytes.hexValue? c).getD 0) 0

-- Whether a decimal number is so large that it rounds to infinity as a float of 64 bits.
def roundsToInfinity (mantissa : Nat) (exponent : Int) : Bool :=
  let size : Int := (Nat.toDigits 10 mantissa).length
  let limit := Nat.pow 2 1024 - Nat.pow 2 970
  if mantissa = 0 || size + exponent ≤ 308 then false
  else if 310 ≤ size + exponent then true
  else if 0 ≤ exponent then limit ≤ mantissa * Nat.pow 10 exponent.toNat
  else limit * Nat.pow 10 (-exponent).toNat ≤ mantissa

def fraction : List Char → Found (List Char)
  | '.' :: rest => digits Char.isDigit rest
  | _ => none

def exponent : List Char → Found Int
  | e :: rest =>
    if e = 'e' || e = 'E' then
      (digits Char.isDigit (skipSign rest)).map fun (ds, rest') =>
        let n : Int := digitsValue 10 ds
        (if isNegative rest then -n else n, rest')
    else none
  | [] => none

def float (cs : List Char) : Option (List Char) :=
  let body := skipSign cs
  match body with
  | 'i' :: 'n' :: 'f' :: rest => some rest
  | 'n' :: 'a' :: 'n' :: rest => some rest
  | _ =>
    match decimalDigits body with
    | none => none
    | some (whole, rest) =>
      let checked (places : List Char) (e : Int) (rest : List Char) : Option (List Char) :=
        if !isNegative cs && roundsToInfinity (digitsValue 10 (whole ++ places)) (e - places.length)
        then none else some rest
      match fraction rest with
      | some (places, rest) =>
        match exponent rest with
        | some (e, rest) => checked places e rest
        | none => checked places 0 rest
      | none =>
        match exponent rest with
        | some (e, rest) => checked [] e rest
        | none => none

-- A whole number fits 64 bits with a sign.
def fitted (n : Int) (rest : List Char) : Found Int :=
  if -0x8000000000000000 ≤ n && n < 0x8000000000000000 then some (n, rest) else none

def integer (cs : List Char) : Found Int :=
  let radix (base : Nat) (isDigit : Char → Bool) (rest : List Char) : Found Int :=
    (digits isDigit rest).bind fun (ds, rest) => fitted (digitsValue base ds) rest
  match cs with
  | '0' :: 'x' :: rest => radix 16 (fun c => (Bytes.hexValue? c).isSome) rest
  | '0' :: 'o' :: rest => radix 8 (fun c => '0' ≤ c && c ≤ '7') rest
  | '0' :: 'b' :: rest => radix 2 (fun c => c = '0' || c = '1') rest
  | _ =>
    (decimalDigits (skipSign cs)).bind fun (ds, rest) =>
      let n : Int := digitsValue 10 ds
      fitted (if isNegative cs then -n else n) rest

-- A number of exactly `n` digits within bounds.
def fixedDigits (n low high : Nat) (cs : List Char) : Found Nat :=
  let ds := cs.take n
  if ds.length = n && ds.all Char.isDigit then
    let v := digitsValue 10 ds
    if low ≤ v && v ≤ high then some (v, cs.drop n) else none
  else none

def expect (c : Char) : List Char → Option (List Char)
  | d :: rest => if d = c then some rest else none
  | [] => none

def daysIn (year month : Nat) : Nat :=
  if month = 2 then
    if year % 4 = 0 && (year % 100 ≠ 0 || year % 400 = 0) then 29 else 28
  else if month = 4 || month = 6 || month = 9 || month = 11 then 30
  else 31

def date (cs : List Char) : Option (List Char) := do
  let (year, cs) ← fixedDigits 4 0 9999 cs
  let cs ← expect '-' cs
  let (month, cs) ← fixedDigits 2 1 12 cs
  let cs ← expect '-' cs
  let (_, cs) ← fixedDigits 2 1 (daysIn year month) cs
  pure cs

def skipSecondFraction (cs : List Char) : List Char :=
  match cs with
  | '.' :: c :: rest => if c.isDigit then rest.dropWhile Char.isDigit else cs
  | _ => cs

def time (cs : List Char) : Option (List Char) := do
  let (_, cs) ← fixedDigits 2 0 23 cs
  let cs ← expect ':' cs
  let (_, cs) ← fixedDigits 2 0 59 cs
  let cs ← expect ':' cs
  let (_, cs) ← fixedDigits 2 0 60 cs
  pure (skipSecondFraction cs)

def timeOffset : List Char → Option (List Char)
  | c :: rest =>
    if c = 'Z' || c = 'z' then some rest
    else if c = '+' || c = '-' then do
      let (_, rest) ← fixedDigits 2 0 23 rest
      let rest ← expect ':' rest
      let (_, rest) ← fixedDigits 2 0 59 rest
      pure rest
    else none
  | [] => none

-- A date with or without a time, or a time alone.
def dateTime (cs : List Char) : Option (List Char) :=
  match date cs with
  | none => time cs
  | some rest =>
    match rest with
    | c :: after =>
      if c = 'T' || c = 't' || c = ' ' then
        match time after with
        | some rest => some ((timeOffset rest).getD rest)
        | none => some rest
      else some rest
    | [] => some []

-- A value that starts with a sign or a digit.
def number (cs : List Char) : Found Value :=
  match dateTime cs with
  | some rest => some (.dateTime, rest)
  | none =>
    match float cs with
    | some rest => some (.float, rest)
    | none => (integer cs).map fun (n, rest) => (.integer n, rest)

-- A word, or any value that starts with a sign or a digit.
def plain : List Char → Found Value
  | 't' :: 'r' :: 'u' :: 'e' :: rest => some (.boolean true, rest)
  | 'f' :: 'a' :: 'l' :: 's' :: 'e' :: rest => some (.boolean false, rest)
  | 'i' :: 'n' :: 'f' :: rest => some (.float, rest)
  | 'n' :: 'a' :: 'n' :: rest => some (.float, rest)
  | cs => number cs

end QuorumLedger.Toml
