import QuorumLedger.Consensus.Role
import QuorumLedger.Consensus.Thresholds
import QuorumLedger.FileTree
import QuorumLedger.Pool

namespace QuorumLedger

structure ValidatorSettings where
  id : ValidatorId
  faults : Faults := .none
  deriving DecidableEq

def ValidatorSettings.isFaulty (v : ValidatorSettings) : Bool :=
  !v.faults.isNone

structure Settings where
  leader : ValidatorId
  validators : List ValidatorSettings
  wallets : List WalletId := []
  -- the number of faults to tolerate, if not that of the faulty validators
  maxFaulty : Option UInt64 := none
  -- how long a validator that delays holds back what it sends
  faultDelayMillis : UInt64 := 700
  initialCoins : UInt64 := 100
  pool : PoolLimits := {}
  deriving DecidableEq

-- Why a text holds no settings.
inductive SettingsSyntax where
  | malformed
  | missingField (name : String)
  | unknownFault (cause : Faults.Unknown)
  deriving DecidableEq

inductive SettingsError where
  | io (path : String) (cause : FileError)
  | parse (cause : SettingsSyntax)
  | noValidators
  | duplicateValidator (validator : ValidatorId)
  | unknownLeader (leader : ValidatorId)
  | faultyLeader (leader : ValidatorId)
  | tooManyFaulty (validators faulty : Nat)
  | overflow (cause : Overflow)
  deriving DecidableEq

namespace SettingsSyntax

-- Of a text that is not well formed, no more is said.
def message? : SettingsSyntax → Option String
  | malformed => none
  | missingField name => some ("missing field `" ++ name ++ "`")
  | unknownFault cause => some cause.message

end SettingsSyntax

namespace SettingsError

def message : SettingsError → String
  | io path cause => s!"Failed to read settings file {path}: {cause.message}"
  | parse cause => "Failed to parse settings: " ++ cause.message?.getD "malformed text"
  | noValidators => "No validators configured"
  | duplicateValidator validator => s!"Validator {validator.text} is listed twice"
  | unknownLeader leader => s!"Leader {leader.text} is not a configured validator"
  | faultyLeader leader => s!"Leader {leader.text} must not be configured with faulty behavior"
  | tooManyFaulty validators faulty => s!"{validators} validators cannot tolerate {faulty} faults"
  | overflow cause => cause.message

end SettingsError

namespace Settings

-- Honest validators numbered from zero with the first one as leader, and a wallet for each.
def ofCount (count : Nat) : Settings :=
  { leader := ⟨0⟩
    validators := (List.range count).map fun i => { id := ⟨UInt64.ofNat i⟩ }
    wallets := (List.range (count % UInt32.size)).map fun i => ⟨UInt32.ofNat i⟩ }

def assignFaults (id : ValidatorId) (faults : Faults) :
    List ValidatorSettings → List ValidatorSettings
  | [] => []
  | v :: rest => if v.id = id then { v with faults } :: rest else v :: assignFaults id faults rest

-- Gives the first validator with a number its faults; an unknown number changes nothing.
def withFaults (s : Settings) (id : ValidatorId) (faults : Faults) : Settings :=
  { s with validators := assignFaults id faults s.validators }

def committee (s : Settings) : List ValidatorId :=
  s.validators.map (·.id)

def find? (s : Settings) (id : ValidatorId) : Option ValidatorSettings :=
  s.validators.find? fun v => v.id = id

def faultyCount (s : Settings) : Nat :=
  s.validators.countP ValidatorSettings.isFaulty

-- The number of faults to tolerate.
def faultBound (s : Settings) : Nat :=
  match s.maxFaulty with
  | some f => f.toNat
  | none => s.faultyCount

def thresholds (s : Settings) : Thresholds :=
  ⟨UInt64.ofNat s.validators.length, UInt64.ofNat s.faultBound⟩

-- The leader proposes, and faulty validators are simulated.
def roleOf (s : Settings) (id : ValidatorId) : Role :=
  if id = s.leader then .proposer
  else
    match s.find? id with
    | some v => if v.isFaulty then .simulated v.faults else .regular
    | none => .regular

-- Whether there are more than three times as many validators as faults.
def checkBound (s : Settings) : Except SettingsError Unit :=
  match Checked.mul 3 s.faultBound with
  | .error e => .error (.overflow e)
  | .ok least =>
    if s.validators.length ≤ least then .error (.tooManyFaulty s.validators.length s.faultBound)
    else .ok ()

def checkLeader (s : Settings) : Except SettingsError Unit :=
  match s.find? s.leader with
  | none => .error (.unknownLeader s.leader)
  | some v => if v.isFaulty then .error (.faultyLeader s.leader) else s.checkBound

def validate (s : Settings) : Except SettingsError Unit :=
  if s.validators.isEmpty then .error .noValidators
  else
    match firstRepeat [] s.committee with
    | some id => .error (.duplicateValidator id)
    | none => s.checkLeader

end Settings

end QuorumLedger
