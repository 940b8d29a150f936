import TamperEvident.Merkle.Frontier
import TamperEvident.Merkle.Proof

/-! A Merkle tree that keeps every complete node, so that roots and proofs for
any earlier leaf count can be answered. -/

namespace TamperEvident

/-- `levels` holds the complete nodes of each height in order. -/
structure Tree (α : Type) where
  levels : List (Array α)
  frontier : List α

namespace Tree

variable {α : Type}

def empty : Tree α := ⟨[#[]], []⟩

def count (t : Tree α) : Nat := (t.levels[0]?.map Array.size).getD 0

/-- Adds a node at the end of its level, or as the first of a new level on top;
nothing at any other place. -/
def place (height index : Nat) (value : α) : List (Array α) → Option (List (Array α))
  | [] => if height = 0 ∧ index = 0 then some [#[value]] else none
  | level :: rest =>
    match height with
    | 0 => if level.size = index then some (level.push value :: rest) else none
    | height + 1 => (place height index value rest).map (level :: ·)

def insertNode : Tree α → Node × α → Except MerkleError (Tree α)
  | ⟨levels, frontier⟩, (node, value) =>
    match place node.height node.index value levels with
    | some levels => .ok ⟨levels, frontier⟩
    | none => .error (.missingNode node.height node.index)

/-- Stores nodes completed by appends made elsewhere, in their order. A batch
is stored whole or not at all. -/
def insertPerfected (t : Tree α) (nodes : List (Node × α)) : Except MerkleError (Tree α) :=
  nodes.foldlM insertNode t

def push (combine : α → α → α) (t : Tree α) (leaf : α) :
    Except MerkleError (List (Node × α) × Tree α) := do
  let (nodes, frontier) ← Frontier.append combine t.frontier t.count leaf
  let stored ← t.insertPerfected nodes
  return (nodes, { stored with frontier })

def root (combine : α → α → α) (t : Tree α) : Option α := Frontier.root combine t.frontier

def stored (t : Tree α) (n : Node) : Except MerkleError α :=
  match t.levels[n.height]?.bind (·[n.index]?) with
  | some value => .ok value
  | none => .error (.missingNode n.height n.index)

def checkAvailable (t : Tree α) (count : Nat) : Except MerkleError Unit :=
  if t.count < count then .error (.missingLeaves count t.count) else .ok ()

def nodeValue (combine : α → α → α) (t : Tree α) (n : Node) (count : Nat) :
    Except MerkleError α := do
  t.checkAvailable count
  if n.isWithin count then t.stored n
  else if count ≤ n.minLeaf then throw (.nodeOutOfRange n.height n.index count)
  else coverValue combine t.stored (n.cover count)

def rootAt (combine : α → α → α) (t : Tree α) (count : Nat) : Except MerkleError α :=
  if count = 0 then .error (.missingLeaves 0 t.count)
  else t.nodeValue combine ⟨bitLength (count - 1), 0⟩ count

def inclusionProof (combine : α → α → α) (t : Tree α) (leaf count : Nat) :
    Except MerkleError (List (Step α)) := do
  t.checkAvailable count
  resolve combine t.stored (← Step.inclusion leaf count)

def consistencyProof (combine : α → α → α) (t : Tree α) (old new : Nat) :
    Except MerkleError (List (Step α)) := do
  t.checkAvailable new
  resolve combine t.stored (← Step.consistency old new)

end Tree

end TamperEvident
