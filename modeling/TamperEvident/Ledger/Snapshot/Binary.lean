import TamperEvident.Ledger.Snapshot.Basic

/-! Snapshots as bytes: numbers and lengths take eight bytes, the least
significant first, and byte fields are hexadecimal text. What follows a snapshot
is not looked at. -/

namespace TamperEvident

namespace Snapshot

/-- A reader takes a value off the front of the bytes. -/
abbrev Reader (α : Type) := Bytes → Option (α × Bytes)

def writeWord (n : UInt64) : Bytes := Bytes.littleEndian 8 n.toNat

def readWord : Reader UInt64 := fun bytes =>
  let word := bytes.take 8
  if word.length = 8 then some (UInt64.ofNat (Bytes.ofLittleEndian word), bytes.drop 8) else none

def writeHex (b : Bytes) : Bytes :=
  let text := Bytes.ofText (Hex.encode b)
  writeWord (UInt64.ofNat text.length) ++ text

def readHex : Reader Bytes := fun bytes => do
  let (length, rest) ← readWord bytes
  let text := rest.take length.toNat
  guard (text.length = length.toNat ∧ text.length % 2 = 0)
  let field ← (Hex.decodePairs 0 text).toOption
  return (field, rest.drop length.toNat)

def writeList {α : Type} (write : α → Bytes) (items : List α) : Bytes :=
  writeWord (UInt64.ofNat items.length) ++ items.flatMap write

def readItems {α : Type} (read : Reader α) : Nat → Reader (List α)
  | 0, bytes => some ([], bytes)
  | n + 1, bytes => do
    let (first, rest) ← read bytes
    let (more, rest) ← readItems read n rest
    return (first :: more, rest)

def readList {α : Type} (read : Reader α) : Reader (List α) := fun bytes => do
  let (count, rest) ← readWord bytes
  readItems read count.toNat rest

def writeLink (l : KnownLink) : Bytes := writeWord l.index ++ writeHex l.linkHash

def readLink : Reader KnownLink := fun bytes => do
  let (index, rest) ← readWord bytes
  let (link, rest) ← readHex rest
  return (⟨index, link⟩, rest)

def writeAuthor (a : KnownAuthor) : Bytes := writeHex a.id ++ writeHex a.publicKey

def readAuthor : Reader KnownAuthor := fun bytes => do
  let (id, rest) ← readHex bytes
  let (key, rest) ← readHex rest
  return (⟨id, key⟩, rest)

def toBytes (s : Snapshot) : Bytes :=
  writeHex s.policy ++ writeWord s.blockCount ++ writeHex s.headBlockHash ++
    writeHex s.headLinkHash ++ writeHex s.contextLinkHash ++ writeList writeLink s.knownLinks ++
    writeList writeAuthor s.knownAuthors

def read : Reader Snapshot := fun bytes => do
  let (policy, rest) ← readHex bytes
  let (blockCount, rest) ← readWord rest
  let (headBlockHash, rest) ← readHex rest
  let (headLinkHash, rest) ← readHex rest
  let (contextLinkHash, rest) ← readHex rest
  let (knownLinks, rest) ← readList readLink rest
  let (knownAuthors, rest) ← readList readAuthor rest
  return (⟨policy, blockCount, headBlockHash, headLinkHash, contextLinkHash, knownLinks,
    knownAuthors⟩, rest)

/-- The snapshot at the front of `bytes`, if a ledger can go on from it. -/
def ofBytes (bytes : Bytes) : Except LedgerError Snapshot :=
  match read bytes with
  | none => .error .snapshotUnreadable
  | some (s, _) =>
    match checkResumable s.blockCount s.headLinkHash s.linkTable with
    | .error cause => .error (.inconsistentState cause)
    | .ok () => .ok s

end Snapshot

end TamperEvident
