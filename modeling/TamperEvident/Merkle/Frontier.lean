import TamperEvident.Binary
import TamperEvident.Merkle.Error
import TamperEvident.Merkle.Node

/-! The frontier of a growing tree: the roots of its perfect subtrees, the
smallest and rightmost first, one for each one among the binary digits of the
leaf count. -/

namespace TamperEvident.Frontier

variable {α : Type}

def root (combine : α → α → α) : List α → Option α
  | [] => none
  | first :: rest => some (rest.foldl (fun value left => combine left value) first)

/-- Joins a complete node with the perfect subtrees on its left for as long as
it is a right child. Gives the nodes this completes and the new frontier. -/
def carry (combine : α → α → α) (n : Node) (value : α) : List α → List (Node × α) × List α
  | [] => ([], [value])
  | left :: rest =>
    if n.isRight then
      let joined := combine left value
      let (nodes, frontier) := carry combine n.parent joined rest
      ((n.parent, joined) :: nodes, frontier)
    else ([], value :: left :: rest)

/-- Appends leaf number `count`: the nodes it completes, itself first, and the
new frontier. -/
def append (combine : α → α → α) (frontier : List α) (count : Nat) (leaf : α) :
    Except MerkleError (List (Node × α) × List α) :=
  if frontier.length = popCount count then
    let (nodes, grown) := carry combine (.leaf count) leaf frontier
    .ok ((.leaf count, leaf) :: nodes, grown)
  else .error (.frontierSize (popCount count) frontier.length)

end TamperEvident.Frontier
