import QuorumLedger.Toml.Scalar

namespace QuorumLedger.Toml

-- Walks down a path, making what is missing, and changes the table at its end.
def descend (made : TableOrigin) (change : TableOrigin → Entries → Option Entries) :
    List String → TableOrigin → Entries → Option Entries
  | [], origin, entries => change origin entries
  | key :: path, _, entries =>
    match Entries.find? key entries with
    | none => do
      let inner ← descend made change path made []
      pure (entries.put key (.table made inner))
    | some (.table origin inner) =>
      -- a dotted key does not reach into a table that a header defined
      if origin = .inline || (made = .dotted && origin = .header) then none
      else do
        let inner ← descend made change path origin inner
        pure (entries.put key (.table origin inner))
    | some (.tables items) =>
      match items.getLast? with
      | none => none
      | some last => do
        let last ← descend made change path .header last
        pure (entries.put key (.tables (items.dropLast ++ [last])))
    | some _ => none

-- Adds a value under a key that may be dotted.
def assign (path : List String) (value : Value) (origin : TableOrigin) (entries : Entries) :
    Option Entries :=
  match path.getLast? with
  | none => none
  | some key =>
    let parents := path.dropLast
    let add (origin : TableOrigin) (entries : Entries) : Option Entries :=
      -- a table is filled by dotted keys alone or not at all by them
      if decide (origin = .dotted) = parents.isEmpty then none
      else if (Entries.find? key entries).isSome then none
      else some (entries.put key value)
    descend .dotted add parents origin entries

-- The largest number of parts of a key, and of values one inside the other.
def depthLimit : Nat := 79

mutual

-- A value. The first argument bounds the steps, the second what may still be nested.
def value : Nat → Nat → List Char → Found Value
  | 0, _, _ => none
  | steps + 1, depth, cs =>
    match cs with
    | '"' :: _ => (string cs).map fun (s, rest) => (.string s, rest)
    | '\'' :: _ => (string cs).map fun (s, rest) => (.string s, rest)
    | '[' :: rest =>
      match depth with
      | 0 => none
      | depth + 1 => (items steps depth [] rest).map fun (vs, rest) => (.array vs, rest)
    | '{' :: rest =>
      match depth with
      | 0 => none
      | depth + 1 =>
        match skipSpace rest with
        | '}' :: rest => some (.table .inline [], rest)
        | _ => (pairs steps depth [] rest).map fun (es, rest) => (.table .inline es, rest)
    | _ => plain cs

-- The rest of an array. A comma may follow the last item.
def items : Nat → Nat → List Value → List Char → Found (List Value)
  | 0, _, _, _ => none
  | steps + 1, depth, read, cs =>
    let cs := skipFiller cs
    match cs with
    | ']' :: rest => some (read.reverse, rest)
    | _ =>
      match value steps depth cs with
      | none => none
      | some (v, rest) =>
        match skipFiller rest with
        | ',' :: rest => items steps depth (v :: read) rest
        | ']' :: rest => some ((v :: read).reverse, rest)
        | _ => none

-- The rest of a table in braces, which has at least one more pair.
def pairs : Nat → Nat → Entries → List Char → Found Entries
  | 0, _, _, _ => none
  | steps + 1, depth, read, cs =>
    match keyPath depthLimit cs with
    | some (path, '=' :: rest) =>
      match value steps depth (skipSpace rest) with
      | none => none
      | some (v, rest) =>
        match assign path v .inline read with
        | none => none
        | some read =>
          match skipSpace rest with
          | ',' :: rest => pairs steps depth read rest
          | '}' :: rest => some (read, rest)
          | _ => none
    | _ => none

end

-- What was read so far: the finished tables, and the table that lines are added to.
structure Reading where
  root : Entries
  path : List String
  isArray : Bool
  current : Entries

namespace Reading

def start : Reading :=
  ⟨[], [], false, []⟩

-- Puts the current table to its place.
def finish (r : Reading) : Option Entries :=
  match r.path.getLast? with
  | none => some r.current
  | some key =>
    let close (_ : TableOrigin) (entries : Entries) : Option Entries :=
      match Entries.find? key entries with
      | none =>
        let v := if r.isArray then .tables [r.current] else .table .header r.current
        some (entries.put key v)
      | some (.tables items) =>
        if r.isArray then some (entries.put key (.tables (items ++ [r.current]))) else none
      | some _ => none
    descend .implied close r.path.dropLast .header r.root

-- A table of a row of tables starts empty.
def openArray (r : Reading) (path : List String) : Option Reading := do
  let root ← r.finish
  pure ⟨root, path, true, []⟩

-- A table takes over what an earlier header implied for it.
def openTable (r : Reading) (path : List String) : Option Reading := do
  let root ← r.finish
  let key ← path.getLast?
  let held := path.dropLast.foldl
    (fun (es : Option Entries) k =>
      match es.bind (Entries.find? k) with
      | some (.table _ es) => some es
      | some (.tables items) => items.getLast?
      | _ => none)
    (some root)
  match held.bind (Entries.find? key) with
  | none => pure ⟨root, path, false, []⟩
  | some (.table .implied inner) =>
    let take (_ : TableOrigin) (entries : Entries) : Option Entries := some (entries.erase key)
    let root ← descend .implied take path.dropLast .header root
    pure ⟨root, path, false, inner⟩
  | some _ => none

end Reading

-- A header in single or double brackets, up to the end of its line.
def header (r : Reading) : List Char → Option (Reading × List Char)
  | '[' :: rest => do
    let (path, rest) ← keyPath depthLimit rest
    let rest ← expect ']' rest
    let rest ← expect ']' rest
    let rest ← lineEnd rest
    let r ← r.openArray path
    pure (r, rest)
  | rest => do
    let (path, rest) ← keyPath depthLimit rest
    let rest ← expect ']' rest
    let rest ← lineEnd rest
    let r ← r.openTable path
    pure (r, rest)

-- A key with its value, up to the end of its line.
def assignment (r : Reading) (cs : List Char) : Option (Reading × List Char) := do
  let (path, rest) ← keyPath depthLimit cs
  let rest ← expect '=' rest
  let rest := skipSpace rest
  let (v, rest) ← value (2 * rest.length + 2) depthLimit rest
  let rest ← lineEnd rest
  let current ← assign path v .header r.current
  pure ({ r with current }, rest)

-- The lines of a document; the first argument bounds their number.
def lines : Nat → Reading → List Char → Option Reading
  | 0, _, _ => none
  | bound + 1, r, cs =>
    match skipSpace cs with
    | [] => some r
    | '[' :: rest => (header r rest).bind fun (r, rest) => lines bound r rest
    | c :: rest =>
      if c = '#' || c = '\n' || c = '\r' then (lineEnd (c :: rest)).bind (lines bound r)
      else (assignment r (c :: rest)).bind fun (r, rest) => lines bound r rest

-- A byte order mark at the start does not count.
def skipMark : List Char → List Char
  | c :: rest => if c = Char.ofNat 0xFEFF then rest else c :: rest
  | [] => []

-- The table that a document holds, if it is well formed.
def parse (text : String) : Option Entries := do
  let cs := skipMark text.toList
  let r ← lines (cs.length + 1) .start cs
  r.finish

end QuorumLedger.Toml
