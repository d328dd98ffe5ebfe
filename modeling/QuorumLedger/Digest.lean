import QuorumLedger.Bytes
import QuorumLedger.Blake3

namespace QuorumLedger

abbrev Digest := Bytes32

namespace Digest

def of (bytes : Bytes) : Digest :=
  Blake3.hash bytes.toByteArray

-- The first five bytes in hexadecimal tell digests apart in messages.
def short (d : Digest) : String :=
  Bytes.hex (d.toList.take 5)

def text (d : Digest) : String :=
  Bytes.hex d.toList

def diagnostic (d : Digest) : String :=
  "Hash(" ++ d.short ++ "..)"

end Digest

end QuorumLedger
