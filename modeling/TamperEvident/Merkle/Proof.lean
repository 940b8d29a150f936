import TamperEvident.Merkle.Error
import TamperEvident.Merkle.Node

/-! Proofs that a leaf is in a tree, or that a tree is the beginning of another:
first as nodes of the tree, then as their values. -/

namespace TamperEvident

/-- A step of a proof: what is combined, and on which side of the value so far. -/
structure Step (τ : Type) where
  onLeft : Bool
  entry : τ
  deriving DecidableEq, Repr

/-- A node that is complete, or the complete nodes that stand in for one. -/
inductive Target where
  | node (node : Node)
  | cover (nodes : List Node)
  deriving DecidableEq, Repr

namespace Step

def toward (count : Nat) (n : Node) : Step Target :=
  ⟨n.isLeft, if n.isWithin count then .node n else .cover (n.cover count)⟩

/-- From `start` to the root: the node itself, then the siblings on the way
that hold leaves. The root has none, so the climb may pass it. -/
def toRoot (start : Node) (count : Nat) : List (Step Target) :=
  ((start :: (start :: start.ancestors count).map Node.sibling).filter
    (·.minLeaf < count)).map (toward count)

def inclusion (leaf count : Nat) : Except MerkleError (List (Step Target)) :=
  if leaf < count then .ok (toRoot (.leaf leaf) count)
  else .error (.leafOutOfRange leaf count)

/-- The steps from the first `old` leaves to all `new` leaves. An empty tree has
no root to start from. -/
def consistency (old new : Nat) : Except MerkleError (List (Step Target)) :=
  if old = 0 ∨ new < old then .error (.invalidRange old new)
  else .ok (toRoot (Node.leaf (old - 1)).climbRight new)

end Step

variable {α : Type}

/-- The value of nodes given from right to left. -/
def coverValue (combine : α → α → α) (lookup : Node → Except MerkleError α) :
    List Node → Except MerkleError α
  | [] => .error .emptySubProof
  | first :: rest => do
    let value ← lookup first
    rest.foldlM (fun value n => do return combine (← lookup n) value) value

def Target.value (combine : α → α → α) (lookup : Node → Except MerkleError α) :
    Target → Except MerkleError α
  | .node n => lookup n
  | .cover nodes => coverValue combine lookup nodes

def resolve (combine : α → α → α) (lookup : Node → Except MerkleError α)
    (steps : List (Step Target)) : Except MerkleError (List (Step α)) :=
  steps.mapM fun step => do return ⟨step.onLeft, ← step.entry.value combine lookup⟩

end TamperEvident
