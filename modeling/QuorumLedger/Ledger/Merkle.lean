import QuorumLedger.Digest

namespace QuorumLedger.Merkle

def nodeBytes (left right : Digest) : Bytes :=
  left.toList ++ right.toList

def node (left right : Digest) : Digest :=
  Digest.of (nodeBytes left right)

-- The level above.
def parents : List Digest → List Digest
  | [] => []
  | [last] => [node last last]
  | left :: right :: rest => node left right :: parents rest

theorem length_parents : ∀ level : List Digest, (parents level).length = (level.length + 1) / 2
  | [] => by simp [parents]
  | [_] => by simp [parents]
  | _ :: _ :: rest => by
    simp only [parents, List.length_cons, length_parents rest]
    omega

-- Pairs are hashed at least once, so even a single leaf is.
def root : List Digest → Option Digest
  | [] => none
  | [leaf] => some (node leaf leaf)
  | [left, right] => some (node left right)
  | a :: b :: c :: rest => root (parents (a :: b :: c :: rest))
termination_by level => level.length
decreasing_by
  simp only [length_parents, List.length_cons]
  omega

end QuorumLedger.Merkle
