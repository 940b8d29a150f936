import TamperEvident.Json.Record
import TamperEvident.Merkle.Proof

/-! Nodes and proof steps as JSON documents. -/

namespace TamperEvident

namespace Node

def fieldNames : List String := ["height", "index"]

def ofJson (j : Json) : Option Node := do
  let [some height, some index] ← j.fieldsOf fieldNames .ignored | none
  return ⟨← height.nat? 32, ← index.nat? 64⟩

def toJson (n : Node) : Json.Value :=
  .object (fieldNames.zip [.ofNat n.height, .ofNat n.index])

def entryFieldNames : List String := ["node", "value"]

def entryOfJson {α : Type} (read : Json → Option α) (j : Json) : Option (Node × α) := do
  let [some node, some value] ← j.fieldsOf entryFieldNames .ignored | none
  return (← ofJson node, ← read value)

def entryToJson {α : Type} (write : α → Json.Value) (entry : Node × α) : Json.Value :=
  .object (entryFieldNames.zip [entry.1.toJson, write entry.2])

end Node

namespace Target

def ofJson (j : Json) : Option Target := do
  match ← j.choice? with
  | ("Node", item) => return .node (← Node.ofJson item)
  | ("SubProof", items) => return .cover (← items.list? Node.ofJson)
  | _ => none

def toJson : Target → Json.Value
  | node n => .object [("Node", n.toJson)]
  | cover nodes => .object [("SubProof", .array (nodes.map Node.toJson))]

end Target

namespace Step

/-- The field that holds the entry is `target` for a node and `value` for a value. -/
def ofJson {α : Type} (field : String) (read : Json → Option α) (j : Json) : Option (Step α) := do
  let [some onLeft, some entry] ← j.fieldsOf ["append_to_left", field] .ignored | none
  return ⟨← onLeft.bool?, ← read entry⟩

def toJson {α : Type} (field : String) (write : α → Json.Value) (s : Step α) : Json.Value :=
  .object [("append_to_left", .bool s.onLeft), (field, write s.entry)]

end Step

end TamperEvident
