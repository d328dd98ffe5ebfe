import QuorumLedger.Wire.Payload
import QuorumLedger.Wire.Compressed

namespace QuorumLedger

inductive CodecError where
  | messageTooShort
  | decompress
  | decode (cause : Wire.ReadError)
  | trailingBytes (count : Nat)
  deriving DecidableEq

namespace CodecError

-- The wording of a failed decoding is settled only for wrong lengths.
def message? : CodecError → Option String
  | messageTooShort => some "Message too short"
  | trailingBytes count => some s!"Trailing bytes after message: {count}"
  | decode (.badLength cause) => some ("Decode error: OtherString(\"" ++ cause.message ++ "\")")
  | decompress => none
  | decode .malformed => none

end CodecError

namespace Message

def payload (m : Message) : Bytes :=
  Wire.putMessage m

def encode (m : Message) : Bytes :=
  Wire.Compressed.literal m.payload

def ofPayload (payload : Bytes) : Except CodecError Message :=
  match Wire.Reader.message payload with
  | .error e => .error (.decode e)
  | .ok (m, []) => .ok m
  | .ok (_, b :: rest) => .error (.trailingBytes (b :: rest).length)

-- The payload is one message to its last byte.
def decode (bytes : Bytes) : Except CodecError Message :=
  if bytes.length < 4 then .error .messageTooShort
  else
    match Wire.Compressed.expand? bytes with
    | none => .error .decompress
    | some payload => ofPayload payload

end Message

end QuorumLedger
