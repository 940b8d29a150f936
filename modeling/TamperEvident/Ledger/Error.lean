import TamperEvident.Crypto.Algorithm
import TamperEvident.Ledger.Policy
import TamperEvident.Ledger.Problem
import TamperEvident.Merkle.Error

/-! What ends an operation on a ledger without a result. Violations of the
policy are no errors: they are reported as problems. -/

namespace TamperEvident

inductive ConfigError where
  | unreadable
  | zeroDepth
  deriving DecidableEq, Repr

/-- How a state and its table of links fail to describe one chain. -/
inductive ResumeError where
  | noBlocks
  | noGenesisLink
  | linkPastHead (index head : UInt64)
  | headLinkDiffers (head : UInt64)
  deriving DecidableEq, Repr

inductive LedgerError where
  | amendmentUnsupported (blockIndex : UInt64)
  | genesisRejected (problems : List Problem)
  | block (cause : BlockError)
  | crypto (cause : CryptoError)
  | policy (cause : PolicyError)
  | merkle (cause : MerkleError)
  | auditOutOfSync (treeLeaves blockCount : UInt64)
  | config (cause : ConfigError)
  | snapshotUnreadable
  | inconsistentState (cause : ResumeError)
  deriving DecidableEq, Repr

def ConfigError.message : ConfigError → String
  | .unreadable => "unreadable settings"
  | .zeroDepth => "max_block_depth must be at least 1"

def ResumeError.message : ResumeError → String
  | .noBlocks => "ledger state has no blocks"
  | .noGenesisLink => "link table has no genesis entry"
  | .linkPastHead index head =>
    "link table has index " ++ toString index ++ " past head " ++ toString head
  | .headLinkDiffers head => "recorded link of head " ++ toString head ++ " differs from the state"

def LedgerError.message : LedgerError → String
  | .amendmentUnsupported blockIndex =>
    "policy block at index " ++ toString blockIndex ++ ": policy amendment is not supported"
  | .genesisRejected problems =>
    "genesis block rejected: [" ++ ", ".intercalate (problems.map Problem.name) ++ "]"
  | .block cause => "block error: " ++ cause.message
  | .crypto cause => "crypto error: " ++ cause.message
  | .policy cause => "policy error: " ++ cause.message
  | .merkle cause => "merkle error: " ++ cause.message
  | .auditOutOfSync treeLeaves blockCount =>
    "audit tree holds " ++ toString treeLeaves ++ " leaves but the ledger has " ++
      toString blockCount ++ " blocks"
  | .config cause => "invalid configuration: " ++ cause.message
  | .snapshotUnreadable => "snapshot error: unreadable bytes"
  | .inconsistentState cause => "cannot resume ledger: " ++ cause.message

end TamperEvident
