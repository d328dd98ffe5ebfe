import QuorumLedger.Ledger.Block

namespace QuorumLedger

inductive MessageKind where
  | send
  | echo
  | ready
  deriving DecidableEq

namespace MessageKind

def name : MessageKind → String
  | send => "Send"
  | echo => "Echo"
  | ready => "Ready"

def text : MessageKind → String
  | send => "SEND"
  | echo => "ECHO"
  | ready => "READY"

end MessageKind

-- The steps of the protocol that lead to a message.
namespace Round

def send : UInt16 := 0
def echo : UInt16 := 1
-- a READY after enough ECHOs, and one after enough READYs of others
def readyFromEcho : UInt16 := 2
def readyFromReady : UInt16 := 3

end Round

structure Message where
  kind : MessageKind
  block : Block
  sender : ValidatorId
  round : UInt16
  deriving DecidableEq

namespace Message

def blockId (m : Message) : Digest :=
  m.block.id

-- The form that reaches another validator: collected votes stay with the one that collected them.
def withoutVotes (m : Message) : Message :=
  { m with block := m.block.withoutVotes }

end Message

end QuorumLedger
