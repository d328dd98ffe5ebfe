import QuorumLedger.OneTime.Key

namespace QuorumLedger.Wire

inductive ReadError where
  -- the bytes end too early, or hold a number, tag or flag that means nothing
  | malformed
  -- a key or a signature with the wrong number of components
  | badLength (cause : SignatureError)
  deriving DecidableEq

-- Takes a value off the front.
abbrev Reader (α : Type) := StateT Bytes (Except ReadError) α

namespace Reader

def fail {α : Type} (e : ReadError) : Reader α :=
  fun _ => .error e

def byte : Reader UInt8
  | [] => .error .malformed
  | b :: rest => .ok (b, rest)

def takeBytes (n : Nat) : Reader Bytes := fun bytes =>
  let front := bytes.take n
  if front.length = n then .ok (front, bytes.drop n) else .error .malformed

-- A number of `width` bytes.
def fixed (width : Nat) : Reader Nat := do
  let bytes ← takeBytes width
  pure (Bytes.toNat bytes)

-- A number in a form of at most `width` bytes.
def number (width : Nat) : Reader Nat := do
  let tag ← byte
  if tag.toNat ≤ 250 then pure tag.toNat
  else if tag = 251 ∧ 2 ≤ width then fixed 2
  else if tag = 252 ∧ 4 ≤ width then fixed 4
  else if tag = 253 ∧ 8 ≤ width then fixed 8
  else fail .malformed

def bytes32 : Reader Bytes32 := do
  let bytes ← takeBytes 32
  match Bytes32.ofList? bytes with
  | some b => pure b
  | none => fail .malformed

def optional {α : Type} (value : Reader α) : Reader (Option α) := do
  let flag ← byte
  if flag = 0 then pure none
  else if flag = 1 then
    let a ← value
    pure (some a)
  else fail .malformed

-- Reads `n` values behind those read already, the last of which comes first.
def items {α : Type} (item : Reader α) : (n : Nat) → List α → Reader (List α)
  | 0, read => pure read.reverse
  | n + 1, read => do
    let a ← item
    items item n (a :: read)

def list {α : Type} (item : Reader α) : Reader (List α) := do
  let n ← number 8
  items item n []

def require {α : Type} : Except SignatureError α → Reader α
  | .ok a => pure a
  | .error e => fail (.badLength e)

end Reader

-- The shortest form: a byte up to 250, else a tag and 2, 4 or 8 bytes.
def putNumber (n : Nat) : Bytes :=
  if n ≤ 250 then [UInt8.ofNat n]
  else if n < UInt16.size then 251 :: Bytes.littleEndian 2 n
  else if n < UInt32.size then 252 :: Bytes.littleEndian 4 n
  else 253 :: Bytes.littleEndian 8 n

def putOptional {α : Type} (put : α → Bytes) : Option α → Bytes
  | none => [0]
  | some a => 1 :: put a

def putList {α : Type} (put : α → Bytes) (xs : List α) : Bytes :=
  putNumber xs.length ++ xs.flatMap put

end QuorumLedger.Wire
