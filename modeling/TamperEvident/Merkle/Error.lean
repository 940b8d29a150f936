/-! Why a Merkle tree cannot be extended or queried. Checking a proof never
fails this way: a bad proof just does not hold. -/

namespace TamperEvident

inductive MerkleError where
  | frontierSize (expected actual : Nat)
  | leafOutOfRange (leaf count : Nat)
  | invalidRange (old new : Nat)
  | missingLeaves (requested available : Nat)
  | missingNode (height index : Nat)
  | nodeOutOfRange (height index count : Nat)
  | emptySubProof
  deriving DecidableEq, Repr

def MerkleError.message : MerkleError → String
  | .frontierSize expected actual =>
    "frontier has " ++ toString actual ++ " entries, expected " ++ toString expected ++
      " for the leaf count"
  | .leafOutOfRange leaf count =>
    "leaf " ++ toString leaf ++ " is outside a tree of " ++ toString count ++ " leaves"
  | .invalidRange old new =>
    "cannot prove consistency from " ++ toString old ++ " to " ++ toString new ++ " leaves"
  | .missingLeaves requested available =>
    "tree holds " ++ toString available ++ " leaves, " ++ toString requested ++ " requested"
  | .missingNode height index =>
    "node (height " ++ toString height ++ ", index " ++ toString index ++ ") is not stored"
  | .nodeOutOfRange height index count =>
    "node (height " ++ toString height ++ ", index " ++ toString index ++
      ") lies outside a tree of " ++ toString count ++ " leaves"
  | .emptySubProof => "empty sub-proof"

end TamperEvident
