import QuorumLedger.Settings.Basic
import QuorumLedger.Toml.Document

namespace QuorumLedger

namespace SettingsFormat

open Toml (Value Entries)

def wholeNumber (limit : Nat) : Value → Except SettingsSyntax Nat
  | .integer n => if 0 ≤ n ∧ n.toNat < limit then .ok n.toNat else .error .malformed
  | _ => .error .malformed

def word64 (v : Value) : Except SettingsSyntax UInt64 :=
  (wholeNumber UInt64.size v).map UInt64.ofNat

def word32 (v : Value) : Except SettingsSyntax UInt32 :=
  (wholeNumber UInt32.size v).map UInt32.ofNat

def faults : Value → Except SettingsSyntax Faults
  | .string text =>
    match Faults.parse text with
    | .ok f => .ok f
    | .error e => .error (.unknownFault e)
  | _ => .error .malformed

-- The values of an array, or of a row of tables.
def listOf : Value → Except SettingsSyntax (List Value)
  | .array items => .ok items
  | .tables items => .ok (items.map (.table .header))
  | _ => .error .malformed

-- The entries of a table. A date or a time counts as a table with none of the keys asked for.
def entriesOf : Value → Option Entries
  | .table _ entries => some entries
  | .dateTime => some []
  | _ => none

-- Reads the entries of a table in their order.
def readEntries {α : Type} (read : α → String → Value → Except SettingsSyntax α) :
    α → Entries → Except SettingsSyntax α
  | a, [] => .ok a
  | a, (key, v) :: rest =>
    match read a key v with
    | .ok a => readEntries read a rest
    | .error e => .error e

-- Reads the values of a list for the keys of a table, as many as there are of both.
def readRow {α : Type} (read : α → String → Value → Except SettingsSyntax α) (keys : List String)
    (a : α) (values : List Value) : Except SettingsSyntax α :=
  readEntries read a (keys.zip values)

def required {α : Type} (name : String) : Option α → Except SettingsSyntax α
  | some a => .ok a
  | none => .error (.missingField name)

structure PartialValidator where
  id : Option UInt64 := none
  faults : Faults := .none

def readValidator (p : PartialValidator) (key : String) (v : Value) :
    Except SettingsSyntax PartialValidator :=
  match key with
  | "id" => (word64 v).map fun id => { p with id := some id }
  | "behavior" => (faults v).map fun faults => { p with faults }
  | _ => .ok p

-- A validator is a table, or a list of its number and its faults.
def validator (v : Value) : Except SettingsSyntax ValidatorSettings := do
  match entriesOf v with
  | some entries =>
    let p ← readEntries readValidator {} entries
    let id ← required "id" p.id
    pure ⟨⟨id⟩, p.faults⟩
  | none =>
    let row ← listOf v
    let p ← readRow readValidator ["id", "behavior"] {} row
    match p.id with
    | some id => pure ⟨⟨id⟩, p.faults⟩
    | none => .error .malformed

def readLimits (l : PoolLimits) (key : String) (v : Value) : Except SettingsSyntax PoolLimits :=
  match key with
  | "max_block_transactions" => (word64 v).map fun n => { l with maxBlockTransactions := n }
  | "max_pending" => (word64 v).map fun n => { l with maxPending := n }
  | _ => .ok l

def limits (v : Value) : Except SettingsSyntax PoolLimits := do
  match entriesOf v with
  | some entries => readEntries readLimits {} entries
  | none =>
    let row ← listOf v
    readRow readLimits ["max_block_transactions", "max_pending"] {} row

structure PartialSettings where
  leader : Option UInt64 := none
  validators : Option (List ValidatorSettings) := none
  rest : Settings := { leader := ⟨0⟩, validators := [] }

def readSettings (p : PartialSettings) (key : String) (v : Value) :
    Except SettingsSyntax PartialSettings :=
  match key with
  | "leader" => (word64 v).map fun n => { p with leader := some n }
  | "validators" => do
    let values ← listOf v
    let validators ← values.mapM validator
    pure { p with validators := some validators }
  | "wallets" => do
    let values ← listOf v
    let ids ← values.mapM word32
    pure { p with rest := { p.rest with wallets := ids.map WalletId.mk } }
  | "max_faulty" => (word64 v).map fun n => { p with rest := { p.rest with maxFaulty := some n } }
  | "fault_delay_ms" =>
    (word64 v).map fun n => { p with rest := { p.rest with faultDelayMillis := n } }
  | "initial_coins" => (word64 v).map fun n => { p with rest := { p.rest with initialCoins := n } }
  | "mempool" => (limits v).map fun l => { p with rest := { p.rest with pool := l } }
  | _ => .ok p

def settings (entries : Entries) : Except SettingsSyntax Settings := do
  let p ← readEntries readSettings {} entries
  let leader ← required "leader" p.leader
  let validators ← required "validators" p.validators
  pure { p.rest with leader := ⟨leader⟩, validators }

end SettingsFormat

namespace Settings

-- The settings that a text holds, whether or not they are to be accepted.
def read (text : String) : Except SettingsSyntax Settings :=
  match Toml.parse text with
  | none => .error .malformed
  | some entries => SettingsFormat.settings entries

-- The settings that a text holds, if they are to be accepted.
def ofText (text : String) : Except SettingsError Settings :=
  match read text with
  | .error e => .error (.parse e)
  | .ok s =>
    match s.validate with
    | .error e => .error e
    | .ok () => .ok s

-- As `ofText`, for what was read from a file.
def ofFile (path : String) : Except FileError String → Except SettingsError Settings
  | .error cause => .error (.io path cause)
  | .ok text => ofText text

-- A whole number of a document has 63 bits.
def fits (s : Settings) : Bool :=
  (s.leader.value :: s.validators.map (·.id.value) ++ s.maxFaulty.toList ++
    [s.faultDelayMillis, s.initialCoins, s.pool.maxBlockTransactions, s.pool.maxPending]).all
      fun n => n.toNat < 0x8000000000000000

def validatorLines (v : ValidatorSettings) : List String :=
  ["", "[[validators]]", s!"id = {v.id.value.toNat}", "behavior = \"" ++ v.faults.text ++ "\""]

def textLines (s : Settings) : List String :=
  let wallets := String.intercalate ", " (s.wallets.map fun w => toString w.value.toNat)
  [s!"leader = {s.leader.value.toNat}"] ++
    (if s.validators.isEmpty then ["validators = []"] else []) ++
    ["wallets = [" ++ wallets ++ "]"] ++
    (s.maxFaulty.toList.map fun f => s!"max_faulty = {f.toNat}") ++
    [s!"fault_delay_ms = {s.faultDelayMillis.toNat}", s!"initial_coins = {s.initialCoins.toNat}"] ++
    s.validators.flatMap validatorLines ++
    ["", "[mempool]", s!"max_block_transactions = {s.pool.maxBlockTransactions.toNat}",
      s!"max_pending = {s.pool.maxPending.toNat}"]

-- The text of settings whose numbers a document can hold.
def toText? (s : Settings) : Option String :=
  if s.fits then some (String.join (s.textLines.map (· ++ "\n"))) else none

end Settings

end QuorumLedger
