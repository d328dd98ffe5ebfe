import QuorumLedger.Cluster
import QuorumLedger.Wire.Envelope

namespace QuorumLedger

-- What a caller is told of a failure. One that only passes on another is told as that one; the pool
-- alone keeps its own name before that of the ledger's rule.
structure Report where
  name : String
  message : Option String
  deriving DecidableEq

class Reportable (ε : Type) where
  report : ε → Report

open Reportable (report)

def LedgerError.name : LedgerError → String
  | coinbaseWithOutputs _ => "CoinbaseWithOutputs"
  | unknownInput _ _ => "UnknownInput"
  | valueMismatch _ _ _ => "ValueMismatch"
  | valueOverflow _ => "ValueOverflow"
  | unknownReceiver _ _ => "UnknownReceiver"
  | duplicateInput _ => "DuplicateInput"
  | merkleMismatch _ _ => "MerkleMismatch"

def PoolError.name : PoolError → String
  | unsigned _ => "Unsigned"
  | badSignature _ _ => "BadSignature"
  | notOwner _ _ _ => "NotOwner"
  | duplicateTxId _ => "DuplicateTxId"
  | full _ => "PoolFull"
  | ledger cause => "Ledger." ++ cause.name

def SignatureError.name : SignatureError → String
  | entropy _ => "Entropy"
  | keyLength _ => "KeyLength"
  | signatureLength _ => "SignatureLength"

def CodecError.name : CodecError → String
  | messageTooShort => "MessageTooShort"
  | decompress => "Decompress"
  | decode _ => "Decode"
  | trailingBytes _ => "TrailingBytes"

instance : Reportable Overflow where
  report e := ⟨"panic", some e.message⟩

instance : Reportable LedgerError where
  report e := ⟨e.name, some e.message⟩

instance : Reportable PoolError where
  report e := ⟨e.name, some e.message⟩

instance : Reportable SignatureError where
  report e := ⟨e.name, some e.message⟩

instance : Reportable CodecError where
  report e := ⟨e.name, e.message?⟩

instance : Reportable Faults.Unknown where
  report e := ⟨"UnknownBehavior", some e.message⟩

instance : Reportable NetworkError where
  report e :=
    match e with
    | .unknownPeer _ => ⟨"UnknownPeer", some e.message⟩
    | .closed => ⟨"Closed", some e.message⟩
    | .codec cause => report cause

instance : Reportable ProposalError where
  report e :=
    match e with
    | .notProposer _ => ⟨"NotProposer", some e.message⟩
    | .signature cause => report cause

instance : Reportable ValidatorError where
  report e :=
    match e with
    | .unknownValidator _ => ⟨"UnknownValidator", some e.message⟩
    | .proposal cause => report cause
    | .network cause => report cause
    | .keyGeneration cause => report cause

instance : Reportable SettingsError where
  report e :=
    match e with
    | .io _ _ => ⟨"Io", some e.message⟩
    | .parse cause => ⟨"Parse", cause.message?⟩
    | .noValidators => ⟨"NoValidators", some e.message⟩
    | .duplicateValidator _ => ⟨"DuplicateValidator", some e.message⟩
    | .unknownLeader _ => ⟨"UnknownLeader", some e.message⟩
    | .faultyLeader _ => ⟨"FaultyLeader", some e.message⟩
    | .tooManyFaulty _ _ => ⟨"TooManyFaulty", some e.message⟩
    | .overflow cause => report cause

instance : Reportable ClusterError where
  report e :=
    match e with
    | .settings cause => report cause
    | .validator cause => report cause
    | .timeout _ _ _ => ⟨"Timeout", some e.message⟩
    | .disagreement _ => ⟨"Disagreement", some e.message⟩
    | .overflow cause => report cause

end QuorumLedger
