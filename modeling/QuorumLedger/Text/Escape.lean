namespace QuorumLedger.Text.Escape

-- Where a reader stands: in plain text, or in some part of an escape sequence.
inductive State where
  | ground
  | escape
  | escapeIntermediate
  | controlEntry
  | controlParameter
  | controlIntermediate
  | controlIgnored
  | deviceEntry
  | deviceParameter
  | deviceIntermediate
  -- the contents of a string that a terminator ends
  | string
  -- a command to the system, which a bell ends
  | command
  deriving DecidableEq

-- Control characters that separate words.
def isSpacing (n : Nat) : Bool :=
  n = 9 || n = 10 || n = 12 || n = 13

def isFinal (n : Nat) : Bool :=
  0x40 ≤ n && n ≤ 0x7E

def isIntermediate (n : Nat) : Bool :=
  0x20 ≤ n && n ≤ 0x2F

def isParameter (n : Nat) : Bool :=
  0x30 ≤ n && n ≤ 0x3F

-- The state after a byte of an escape sequence.
def afterByte (s : State) (byte : UInt8) : State :=
  let n := byte.toNat
  if n = 0x1B then .escape
  else if n = 0x18 || n = 0x1A then .ground
  else
    match s with
    | .ground => .ground
    | .escape =>
      if isIntermediate n then .escapeIntermediate
      else if n = 0x5B then .controlEntry
      else if n = 0x5D then .command
      else if n = 0x50 then .deviceEntry
      else if n = 0x58 || n = 0x5E || n = 0x5F then .string
      else if isParameter n || isFinal n then .ground
      else s
    | .escapeIntermediate => if isParameter n || isFinal n then .ground else s
    | .controlEntry =>
      if isIntermediate n then .controlIntermediate
      else if isParameter n then .controlParameter
      else if isFinal n then .ground
      else s
    | .controlParameter =>
      if isIntermediate n then .controlIntermediate
      else if 0x3C ≤ n && n ≤ 0x3F then .controlIgnored
      else if isFinal n then .ground
      else s
    | .controlIntermediate =>
      if isParameter n then .controlIgnored else if isFinal n then .ground else s
    | .controlIgnored => if isFinal n then .ground else s
    | .deviceEntry =>
      if isIntermediate n then .deviceIntermediate
      else if isParameter n then .deviceParameter
      else if isFinal n then .string
      else s
    | .deviceParameter =>
      if isIntermediate n then .deviceIntermediate
      else if (0x3C ≤ n && n ≤ 0x3F) || isFinal n then .string
      else s
    | .deviceIntermediate => if isParameter n || isFinal n then .string else s
    | .string => if n = 0x9C then .ground else s
    | .command => if n = 0x07 then .ground else s

def after (s : State) (c : Char) : State :=
  (String.singleton c).toUTF8.data.toList.foldl afterByte s

-- Whether a character is text in a state.
def isShown (s : State) (c : Char) : Bool :=
  let n := c.toNat
  match s with
  | .ground => isSpacing n || (0x20 ≤ n && n ≠ 0x7F)
  | .escape | .escapeIntermediate => isSpacing n
  | .controlEntry | .controlParameter | .controlIntermediate | .controlIgnored => isSpacing n
  | _ => false

structure Reader where
  state : State := .ground
  -- whether the last character was text
  isShowing : Bool := false

-- Takes one character and tells whether it is text. After text, more text is taken for such; the
-- state that stood before it counts again at the next character that is none.
def Reader.read (r : Reader) (c : Char) : Bool × Reader :=
  if isShown (if r.isShowing then .ground else r.state) c then
    (true, ⟨if c.toNat < 0x80 then r.state else .ground, true⟩)
  else
    (false, ⟨after r.state c, false⟩)

def stripFrom (r : Reader) : List Char → List Char
  | [] => []
  | c :: rest =>
    let (isText, r) := r.read c
    if isText then c :: stripFrom r rest else stripFrom r rest

-- The text without what only a terminal understands.
def strip (cs : List Char) : List Char :=
  stripFrom {} cs

-- A text between escape sequences that make it bold.
def bold (text : String) : String :=
  "\x1B[1m" ++ text ++ "\x1B[0m"

end QuorumLedger.Text.Escape
