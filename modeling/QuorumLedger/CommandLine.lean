import QuorumLedger.CommandLine.UsageError

namespace QuorumLedger.CommandLine

-- What the arguments ask for.
inductive Command where
  | run (options : Simulation.Options)
  | help
  | version

-- Why the arguments are read no further.
inductive Stop where
  | help
  | version
  | error (cause : UsageError)

-- A value in an argument of its own is looked at only when the next known parameter or the end is
-- reached, so that what does not belong there is reported first.
structure Reading where
  options : Simulation.Options := {}
  -- the parameters that were accepted, by their first occurrence
  given : List Parameter := []
  -- the last parameter and its value, while it was not looked at
  pending : Option (Parameter × Option String) := none

-- A parameter among those given.
def give (p : Parameter) (given : List Parameter) : List Parameter :=
  if given.any fun q => q.name = p.name then given else given ++ [p]

def withdraw (p : Parameter) (given : List Parameter) : List Parameter :=
  given.filter fun q => q.name ≠ p.name

namespace Reading

-- Takes a parameter with its value. The reading goes on even where there is a fault, so that the
-- parameters given are known to a fault that comes later.
def accept (r : Reading) (p : Parameter) (value : Option String) : Reading × Option Stop :=
  match p.meaning, value with
  | .help, _ => (r, some .help)
  | .version, _ => (r, some .version)
  | .setting _ _ _, none => (r, some (.error (.missingValue p)))
  | .setting _ isRepeatable read, some value =>
    if !isRepeatable && r.given.any fun q => q.name = p.name then
      ({ r with given := withdraw p r.given }, some (.error (.repeated p)))
    else
      let r := { r with given := give p r.given }
      match read r.options value with
      | .ok options => ({ r with options }, none)
      | .error .missing => (r, some (.error (.missingValue p)))
      | .error (.invalid reason) => (r, some (.error (.invalidValue p value reason)))

-- Takes the parameter that is pending.
def settle (r : Reading) : Reading × Option Stop :=
  match r.pending with
  | none => (r, none)
  | some (p, value) => { r with pending := none }.accept p value

def stopOr (x : Reading × Option Stop) : Except Stop Reading :=
  match x with
  | (r, none) => .ok r
  | (_, some stop) => .error stop

-- Goes on to a parameter with the value that is joined to it, if there is one.
def next (r : Reading) (p : Parameter) (joined : Option String) : Except Stop Reading := do
  match p.meaning, joined with
  | .setting _ _ _, none =>
    let r ← stopOr r.settle
    pure { r with pending := some (p, none) }
  | .setting _ _ _, some value =>
    let r ← stopOr r.settle
    stopOr (r.accept p value)
  | _, none =>
    let r ← stopOr r.settle
    stopOr (r.accept p none)
  | _, some value => .error (.error (.needlessValue p value r.given.isEmpty))

-- Reads an argument that starts with two dashes, without them.
def long (r : Reading) (cs : List Char) : Except Stop Reading :=
  let name := String.ofList (cs.takeWhile (· ≠ '='))
  match Parameter.named? name with
  | some p => r.next p ((cs.dropWhile (· ≠ '=')).tail?.map String.ofList)
  | none =>
    let given := r.settle.1.given
    let similar := similar? name
    .error (.error (.unknown name similar (similar.elim given (give · given))))

-- Reads an argument that starts with one dash, by the letter behind it.
def short (r : Reading) (letter : Char) (rest : List Char) : Except Stop Reading :=
  match Parameter.lettered? letter with
  | none => .error (.error (.unexpected (String.ofList ['-', letter])))
  | some p =>
    match p.meaning, rest with
    | .setting _ _ _, '=' :: value => r.next p (some (String.ofList value))
    | .setting _ _ _, _ :: _ => r.next p (some (String.ofList rest))
    | _, _ => r.next p none

-- Reads an argument that is no parameter.
def word (r : Reading) (text : String) : Except Stop Reading :=
  match r.pending with
  | some (p, none) => .ok { r with pending := some (p, some text) }
  | _ => .error (.error (.unexpected text))

def argument (r : Reading) (text : String) : Except Stop Reading :=
  match text.toList with
  | '-' :: '-' :: cs => r.long cs
  | '-' :: letter :: rest => r.short letter rest
  | _ => r.word text

def finish (r : Reading) : Except Stop Reading :=
  stopOr r.settle

-- Two dashes alone end the parameters; nothing may follow them.
def arguments (r : Reading) : List String → Except Stop Reading
  | [] => r.finish
  | "--" :: [] => r.finish
  | "--" :: text :: _ => .error (.error (.unexpected text))
  | text :: rest => do
    let r ← r.argument text
    arguments r rest

end Reading

def parse (arguments : List String) : Except UsageError Command :=
  match Reading.arguments {} arguments with
  | .ok r => .ok (.run r.options)
  | .error .help => .ok .help
  | .error .version => .ok .version
  | .error (.error e) => .error e

end QuorumLedger.CommandLine
