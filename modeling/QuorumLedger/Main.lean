import QuorumLedger.CommandLine

open QuorumLedger

-- The failure with a number of the system, which may come with its sign turned round.
def numberedError (number : UInt32) (details : String) : FileError :=
  let number := if number < 0x80000000 then number else 0 - number
  match number with
  | 2 => .notFound
  | 20 => .notDirectory
  | 21 => .isDirectory
  | 36 => .nameTooLong
  | _ => .other s!"{details.capitalize} (os error {number})"

-- Why a file cannot be read.
def fileError : IO.Error → FileError
  | .noFileOrDirectory _ number details => numberedError number details
  | .inappropriateType _ number details => numberedError number details
  | .invalidArgument _ number details => numberedError number details
  | .permissionDenied _ number details => numberedError number details
  | .otherError number details => numberedError number details
  | e => .other (toString e)

def readSettings (path : String) : IO (Except FileError String) := do
  try
    let contents ← IO.FS.readBinFile path
    pure (FileTree.text contents.data.toList)
  catch e => pure (.error (fileError e))

-- A step with the time that it took.
def measured {α : Type} (step : Unit → α) : IO (α × Nat) := do
  let start ← IO.monoNanosNow
  let result ← IO.lazyPure step
  let stop ← IO.monoNanosNow
  pure (result, stop - start)

def simulate (options : Simulation.Options) : IO UInt32 := do
  let file ←
    match options.config with
    | some path => readSettings path
    | none => pure (.ok "")
  let random ← IO.getRandomBytes 32
  let secret := Digest.of random.data.toList
  match ← Simulation.run IO.println measured options file secret with
  | none => pure 0
  | some failure =>
    failure.lines.forM IO.eprintln
    pure 1

def main (arguments : List String) : IO UInt32 := do
  match CommandLine.parse arguments with
  | .error e =>
    e.lines.forM IO.eprintln
    pure 2
  | .ok .help =>
    CommandLine.helpLines.forM IO.println
    pure 0
  | .ok .version =>
    IO.println CommandLine.version
    pure 0
  | .ok (.run options) => simulate options
