import TamperEvident.Crypto.Algorithm

/-! The chain of link hashes over raw blocks. Each link covers a block's hash
and the link before it, so anyone who holds the blocks can make every link. -/

namespace TamperEvident

/-- The first block has no link before it. -/
def linkHash (h : HashAlgorithm) (blockHash : Bytes) : (previous : Option Bytes) → Bytes
  | none => h.hash blockHash
  | some previous => h.hashParts [blockHash, previous]

structure ChainLink where
  blockHash : Bytes
  linkHash : Bytes
  deriving DecidableEq, Repr

inductive ChainError where
  | emptyChain
  | headMismatch (blocks : Nat)
  | linkMismatch (index : Nat)
  | lengthMismatch (blocks links : Nat)
  deriving DecidableEq, Repr

def ChainError.message : ChainError → String
  | .emptyChain => "no blocks to replay"
  | .headMismatch blocks => "head link hash mismatch after " ++ toString blocks ++ " blocks"
  | .linkMismatch index => "link hash mismatch at index " ++ toString index
  | .lengthMismatch blocks links =>
    toString blocks ++ " blocks but " ++ toString links ++ " recorded link hashes"

namespace Chain

def nextLink (h : HashAlgorithm) (previous : Option Bytes) (raw : Bytes) : ChainLink :=
  let blockHash := h.hash raw
  ⟨blockHash, linkHash h blockHash previous⟩

def replayFrom (h : HashAlgorithm) (previous : Option Bytes) : List Bytes → List ChainLink
  | [] => []
  | raw :: rest =>
    let link := nextLink h previous raw
    link :: replayFrom h (some link.linkHash) rest

def replay (h : HashAlgorithm) (blocks : List Bytes) : List ChainLink :=
  replayFrom h none blocks

def verifyHead (h : HashAlgorithm) (blocks : List Bytes) (head : Bytes) : Except ChainError Unit :=
  let links := replay h blocks
  match links.getLast? with
  | none => .error .emptyChain
  | some last => if last.linkHash = head then .ok () else .error (.headMismatch links.length)

def compareLinks (index : Nat) : List ChainLink → List Bytes → Except ChainError Unit
  | link :: links, claimed :: recorded =>
    if link.linkHash = claimed then compareLinks (index + 1) links recorded
    else .error (.linkMismatch index)
  | _, _ => .ok ()

def verifyLinks (h : HashAlgorithm) (blocks recorded : List Bytes) : Except ChainError Unit :=
  let links := replay h blocks
  if links.length = recorded.length then compareLinks 0 links recorded
  else .error (.lengthMismatch links.length recorded.length)

end Chain

end TamperEvident
