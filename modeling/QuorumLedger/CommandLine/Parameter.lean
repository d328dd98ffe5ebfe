import QuorumLedger.Decimal.Reading
import QuorumLedger.Simulation
import QuorumLedger.Text.Blank

namespace QuorumLedger.CommandLine

-- What is wrong with a value.
inductive ValueFault where
  -- an empty value that counts as none
  | missing
  | invalid (reason : String)

-- What a parameter asks for.
inductive Meaning where
  | help
  | version
  -- a setting of the run, with the name of its value
  | setting (placeholder : String) ( isRepeatable : Bool)
      (read : Simulation.Options → String → Except ValueFault Simulation.Options)

structure Parameter where
  name : String
  -- the letter that may stand for the name
  letter : Option Char := none
  about : String
  default? : Option String := none
  meaning : Meaning

-- A faulty validator as its number, an equals sign and the names of its faults.
def faultyValidator (value : String) : Except String (ValidatorId × Faults) :=
  let cs := value.toList
  match cs.dropWhile (· ≠ '=') with
  | [] => .error ("Expected ID=BEHAVIOR, got " ++ value)
  | _ :: names =>
    let number := cs.takeWhile (· ≠ '=')
    match Decimal.whole (Text.trim number) with
    | .error _ => .error ("Invalid validator ID: " ++ String.ofList number)
    | .ok id =>
      match Faults.parse (String.ofList names) with
      | .error e => .error e.message
      | .ok faults => .ok (⟨id⟩, faults)

def wholeValue (value : String) : Except String UInt64 :=
  match Decimal.whole value.toList with
  | .ok n => .ok n
  | .error e => .error e.message

def floatValue (value : String) : Except String Float :=
  match Decimal.float? value.toList with
  | some x => .ok x
  | none =>
    .error (if value.isEmpty then "cannot parse float from empty string" else "invalid float literal")

def pathValue (value : String) : Except ValueFault String :=
  if value.isEmpty then .error .missing else .ok value

namespace Meaning

-- A setting that takes the value as it is read.
def ofReader {α : Type} (placeholder : String) (read : String → Except String α)
    (change : Simulation.Options → α → Simulation.Options) : Meaning :=
  .setting placeholder false fun o value => ((read value).mapError .invalid).map (change o)

end Meaning

namespace Parameter

def all : List Parameter :=
  [{ name := "config", letter := some 'c'
     about := "Settings file (TOML). Overrides --validators and --faulty"
     meaning := .setting "CONFIG" false fun o value =>
       (pathValue value).map fun path => { o with config := some path } },
    { name := "validators"
      about := "Number of validators when no settings file is given", default? := some "4"
      meaning := .ofReader "VALIDATORS" wholeValue fun o n => { o with validators := n } },
    { name := "faulty"
      about := "Faulty validator as ID=BEHAVIOR, e.g. 3=crash or 2=delay_send|wrong_order"
      meaning := .setting "FAULTY" true fun o value =>
        ((faultyValidator value).mapError .invalid).map fun v =>
          { o with faulty := o.faulty ++ [v] } },
    { name := "rounds", letter := some 'r', about := "Heights to agree on", default? := some "3"
      meaning := .ofReader "ROUNDS" wholeValue fun o n => { o with rounds := n } },
    { name := "transfers", about := "Transfers submitted before each height", default? := some "4"
      meaning := .ofReader "TRANSFERS" wholeValue fun o n => { o with transfers := n } },
    { name := "max-amount", about := "Largest single transfer amount", default? := some "10"
      meaning := .ofReader "MAX_AMOUNT" wholeValue fun o n => { o with maxAmount := n } },
    { name := "loss", about := "Packet loss rate (0.0 to 1.0)", default? := some "0.0"
      meaning := .ofReader "LOSS" floatValue fun o x => { o with loss := x } },
    { name := "seed", about := "Seed for the workload and the network", default? := some "12345"
      meaning := .ofReader "SEED" wholeValue fun o n => { o with seed := n } },
    { name := "timeout", about := "Seconds to wait for each height", default? := some "10"
      meaning := .ofReader "TIMEOUT" wholeValue fun o n => { o with timeoutSeconds := n } },
    -- nothing is logged, so the filter changes nothing
    { name := "log-level", about := "Log filter used when RUST_LOG is unset", default? := some "info"
      meaning := .setting "LOG_LEVEL" false fun o _ => .ok o },
    { name := "help", letter := some 'h', about := "Print help", meaning := .help },
    { name := "version", letter := some 'V', about := "Print version", meaning := .version }]

def named? (name : String) : Option Parameter :=
  all.find? fun p => p.name = name

def lettered? (letter : Char) : Option Parameter :=
  all.find? fun p => p.letter = some letter

-- The parameter with what its value is called.
def shown (p : Parameter) : String :=
  match p.meaning with
  | .setting placeholder _ _ => "--" ++ p.name ++ " <" ++ placeholder ++ ">"
  | _ => "--" ++ p.name

def isSetting (p : Parameter) : Bool :=
  match p.meaning with
  | .setting _ _ _ => true
  | _ => false

-- Any one of the settings.
def anySetting : String :=
  "<" ++ String.intercalate "|" ((all.filter isSetting).map shown) ++ ">"

-- The columns that the longest parameter takes.
def width : Nat :=
  all.foldl (fun n p => max n p.shown.length) 0

def helpLine (p : Parameter) : String :=
  let letter := p.letter.elim "    " fun c => "-" ++ String.singleton c ++ ", "
  let default := p.default?.elim "" fun value => " [default: " ++ value ++ "]"
  "  " ++ letter ++ p.shown.pushn ' ' (width - p.shown.length) ++ "  " ++ p.about ++ default

end Parameter

def program : String := "ledgerbft-sim"

def version : String := program ++ " 0.1.0"

-- How the program is called, with the parameters that matter or, if there are none, with any.
def usage (parameters : List String) : String :=
  String.intercalate " " (program :: if parameters.isEmpty then ["[OPTIONS]"] else parameters)

def helpLines : List String :=
  ["Run Bracha block agreement on an in-process committee", "", "Usage: " ++ usage [], "",
    "Options:"] ++ Parameter.all.map Parameter.helpLine

end QuorumLedger.CommandLine
