import TamperEvident.Ledger.Error
import TamperEvident.Ledger.State

/-! Snapshots: what is needed to go on with a ledger later. The policy is kept
as its payload and is checked again on the way back. -/

namespace TamperEvident

structure KnownLink where
  index : UInt64
  linkHash : Bytes
  deriving DecidableEq, Repr

structure KnownAuthor where
  id : Bytes
  publicKey : Bytes
  deriving DecidableEq, Repr

structure Snapshot where
  policy : Bytes
  blockCount : UInt64
  headBlockHash : Bytes
  headLinkHash : Bytes
  contextLinkHash : Bytes
  knownLinks : List KnownLink
  knownAuthors : List KnownAuthor
  deriving DecidableEq, Repr

/-- Whether a ledger of `blockCount` blocks can go on with these links: the
first link is always known, no link lies past the head, and the head's own link
is missing only if that block was malformed. -/
def checkResumable (blockCount : UInt64) (headLink : Bytes) (links : LinkTable) :
    Except ResumeError Unit :=
  if blockCount = 0 then .error .noBlocks
  else if !links.contains 0 then .error .noGenesisLink
  else
    match links.maxEntry? with
    | none => .ok ()
    | some (last, link) =>
      if blockCount - 1 < last then .error (.linkPastHead last (blockCount - 1))
      else if last = blockCount - 1 ∧ link ≠ headLink then
        .error (.headLinkDiffers (blockCount - 1))
      else .ok ()

namespace Snapshot

def take (s : LedgerState) (links : LinkTable) (authors : AuthorTable) : Snapshot where
  policy := s.policy.payload
  blockCount := s.blockCount
  headBlockHash := s.headBlockHash
  headLinkHash := s.headLinkHash
  contextLinkHash := s.contextLinkHash
  knownLinks := links.toList.map fun e => ⟨e.1, e.2⟩
  knownAuthors := authors.toList.map fun e => ⟨e.1, e.2⟩

def state (s : Snapshot) : Except PolicyError LedgerState := do
  let policy ← Policy.parse Policy.version s.policy
  return {
    policy
    blockCount := s.blockCount
    headBlockHash := s.headBlockHash
    headLinkHash := s.headLinkHash
    contextLinkHash := s.contextLinkHash }

def linkTable (s : Snapshot) : LinkTable :=
  Table.ofEntries (s.knownLinks.map fun l => (l.index, l.linkHash))

def authorTable (s : Snapshot) : AuthorTable :=
  Table.ofEntries (s.knownAuthors.map fun a => (a.id, a.publicKey))

end Snapshot

end TamperEvident
