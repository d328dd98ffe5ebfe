import QuorumLedger.Consensus.Message

namespace QuorumLedger

structure Inbox where
  messages : List Message

namespace Inbox

def empty : Inbox :=
  ⟨[]⟩

def push (i : Inbox) (m : Message) : Inbox :=
  ⟨i.messages ++ [m]⟩

-- Everything that is queued, the oldest first.
def drain (i : Inbox) : List Message × Inbox :=
  (i.messages, empty)

-- As `drain`, but waits while there is nothing to take and the worker is to go on: no result says
-- that it would wait.
def waitDrain? (i : Inbox) (running : Bool) : Option (List Message × Inbox) :=
  if i.messages.isEmpty && running then none else some i.drain

end Inbox

end QuorumLedger
