import TamperEvident.Merkle.Node

/-! The search for the nodes that stand in for a node, one test after another. Only their own tests
end its two loops: from the last leaf it climbs while the node above is complete, and it goes on
with the node next to the left while that one is below the node to be covered. -/

namespace TamperEvident

/-- Where the search stands, with the nodes found so far: before a test of the cursor, before a test
of the climb from it, or at its end. -/
inductive CoverWalk where
  | atCursor (cursor : Option Node) (found : List Node)
  | climbing (node : Node) (found : List Node)
  | done (found : List Node)
  deriving DecidableEq, Repr

namespace CoverWalk

def start (count : Nat) : CoverWalk :=
  .atCursor (if count = 0 then none else some (.leaf (count - 1))) []

def step (n : Node) (count : Nat) : CoverWalk → CoverWalk
  | .atCursor cursor found =>
    match cursor.filter n.contains with
    | some node => .climbing node found
    | none => .done found
  | .climbing node found =>
    if node.parent.isWithin count then .climbing node.parent found
    else .atCursor node.left? (found ++ [node])
  | .done found => .done found

end CoverWalk

end TamperEvident
