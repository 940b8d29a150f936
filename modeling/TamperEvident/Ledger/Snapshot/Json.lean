import TamperEvident.Ledger.Snapshot.Basic

/-! Snapshots as JSON documents. -/

namespace TamperEvident

def hexValue (b : Bytes) : Json.Value := .string (Hex.encode b)

namespace KnownLink

def fieldNames : List String := ["index", "link_hash"]

def ofJson (j : Json) : Option KnownLink := do
  let [some index, some link] ← j.fieldsOf fieldNames .ignored | none
  return ⟨← index.word?, ← link.hex?⟩

def toJson (l : KnownLink) : Json.Value :=
  .object (fieldNames.zip [.ofWord l.index, hexValue l.linkHash])

end KnownLink

namespace KnownAuthor

def fieldNames : List String := ["id", "public_key"]

def ofJson (j : Json) : Option KnownAuthor := do
  let [some id, some key] ← j.fieldsOf fieldNames .ignored | none
  return ⟨← id.hex?, ← key.hex?⟩

def toJson (a : KnownAuthor) : Json.Value :=
  .object (fieldNames.zip [hexValue a.id, hexValue a.publicKey])

end KnownAuthor

namespace Snapshot

def fieldNames : List String :=
  ["policy", "block_count", "head_block_hash", "head_link_hash", "context_link_hash",
    "known_links", "known_authors"]

def ofJson (j : Json) : Option Snapshot := do
  let [some policy, some count, some block, some link, some context, some links, some authors] ←
    j.fieldsOf fieldNames .ignored | none
  return {
    policy := ← policy.hex?
    blockCount := ← count.word?
    headBlockHash := ← block.hex?
    headLinkHash := ← link.hex?
    contextLinkHash := ← context.hex?
    knownLinks := ← links.list? KnownLink.ofJson
    knownAuthors := ← authors.list? KnownAuthor.ofJson }

def toJson (s : Snapshot) : Json.Value :=
  .object (fieldNames.zip [hexValue s.policy, .ofWord s.blockCount, hexValue s.headBlockHash,
    hexValue s.headLinkHash, hexValue s.contextLinkHash,
    .array (s.knownLinks.map KnownLink.toJson), .array (s.knownAuthors.map KnownAuthor.toJson)])

end Snapshot

end TamperEvident
