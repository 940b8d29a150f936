import TamperEvident.Chain
import TamperEvident.Ledger.Policy
import TamperEvident.Table

/-! The state of a ledger after a block, and the tables kept beside it. -/

namespace TamperEvident

structure LedgerState where
  policy : Policy
  blockCount : UInt64
  headBlockHash : Bytes
  headLinkHash : Bytes
  /-- The link that `inContext` layers have to name. -/
  contextLinkHash : Bytes

/-- Recorded links by block index. -/
abbrev LinkTable := Table UInt64 Bytes

/-- Public keys by author id, the hash of the key. -/
abbrev AuthorTable := Table Bytes Bytes

namespace LedgerState

/-- After the first block, whose own link is the context. -/
def genesis (h : HashAlgorithm) (policy : Policy) (raw : Bytes) : LedgerState :=
  let link := Chain.nextLink h none raw
  ⟨policy, 1, link.blockHash, link.linkHash, link.linkHash⟩

/-- After one more block, which becomes the context if `update` says so. -/
def advance (h : HashAlgorithm) (s : LedgerState) (raw : Bytes) (update : Bool) : LedgerState :=
  let link := Chain.nextLink h (some s.headLinkHash) raw
  { s with
    blockCount := s.blockCount + 1
    headBlockHash := link.blockHash
    headLinkHash := link.linkHash
    contextLinkHash := if update then link.linkHash else s.contextLinkHash }

def headIndex (s : LedgerState) : UInt64 := s.blockCount - 1

def fieldNames : List String :=
  ["policy", "block_count", "head_block_hash", "head_link_hash", "context_link_hash"]

def ofJson (j : Json) : Option LedgerState := do
  let [some policy, some count, some block, some link, some context] ←
    j.fieldsOf fieldNames .ignored | none
  return {
    policy := ← Policy.ofJson (Json.nestingLimit - 1) policy
    blockCount := ← count.word?
    headBlockHash := ← block.hex?
    headLinkHash := ← link.hex?
    contextLinkHash := ← context.hex? }

def toJson (s : LedgerState) : Json.Value :=
  .object (fieldNames.zip [s.policy.toJson, .ofWord s.blockCount,
    .string (Hex.encode s.headBlockHash), .string (Hex.encode s.headLinkHash),
    .string (Hex.encode s.contextLinkHash)])

end LedgerState

end TamperEvident
