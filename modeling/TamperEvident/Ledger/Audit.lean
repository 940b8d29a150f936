import TamperEvident.Crypto.MerkleHash
import TamperEvident.Ledger.Validator
import TamperEvident.Merkle.Checker
import TamperEvident.Merkle.Tree

/-! A validator beside a Merkle tree with one leaf for each block, made from the
block's link hash. -/

namespace TamperEvident

structure AuditedLedger where
  validator : Validator
  tree : Tree Digest

/-- A report with the leaf it appended, if it produced a state, and the nodes
that this completed. -/
structure AuditedReport where
  report : Report
  leaf : Option Digest
  completed : List (Node × Digest)
  frontier : List Digest
  root : Option Digest

namespace AuditedLedger

def empty (crypto : CryptoProvider) (config : Config) : AuditedLedger :=
  ⟨.empty crypto config, .empty⟩

/-- Leaves are counted as blocks are. -/
def leafCount (l : AuditedLedger) : UInt64 := UInt64.ofNat l.tree.count

def checkSync (l : AuditedLedger) : Except LedgerError Unit :=
  if l.leafCount = l.validator.blockCount then .ok ()
  else .error (.auditOutOfSync l.leafCount l.validator.blockCount)

def withHistory (validator : Validator) (tree : Tree Digest) : Except LedgerError AuditedLedger :=
  let l : AuditedLedger := ⟨validator, tree⟩
  l.checkSync.map fun _ => l

def root (l : AuditedLedger) : Option Digest := l.tree.root Digest.combine

def append (l : AuditedLedger) (report : Report) :
    Except LedgerError AuditedReport × AuditedLedger :=
  match report.state with
  | none => (.ok ⟨report, none, [], l.tree.frontier, l.root⟩, l)
  | some s =>
    if s.headIndex = l.leafCount then
      let leaf := Digest.leaf s.headLinkHash
      match l.tree.push Digest.combine leaf with
      | .error e => (.error (.merkle e), l)
      | .ok (completed, tree) =>
        let l := { l with tree }
        (.ok ⟨report, some leaf, completed, tree.frontier, l.root⟩, l)
    else (.error (.auditOutOfSync l.leafCount s.blockCount), l)

def submitWith (step : Validator → Except LedgerError Report × Validator) (l : AuditedLedger) :
    Except LedgerError AuditedReport × AuditedLedger :=
  match l.checkSync with
  | .error e => (.error e, l)
  | .ok () =>
    let (result, validator) := step l.validator
    let l := { l with validator }
    match result with
    | .error e => (.error e, l)
    | .ok report => l.append report

def submit (l : AuditedLedger) (raw : Bytes) : Except LedgerError AuditedReport × AuditedLedger :=
  l.submitWith (·.submit raw)

def submitBlock (l : AuditedLedger) (b : Block) :
    Except LedgerError AuditedReport × AuditedLedger :=
  l.submitWith (·.submitBlock b)

def rootAt (l : AuditedLedger) (count : Nat) : Except LedgerError Digest :=
  (l.tree.rootAt Digest.combine count).mapError .merkle

def leaf (l : AuditedLedger) (index : Nat) : Except LedgerError Digest :=
  (l.tree.stored (.leaf index)).mapError .merkle

def inclusionProof (l : AuditedLedger) (leaf count : Nat) :
    Except LedgerError (List (Step Digest)) :=
  (l.tree.inclusionProof Digest.combine leaf count).mapError .merkle

def consistencyProof (l : AuditedLedger) (old new : Nat) :
    Except LedgerError (List (Step Digest)) :=
  (l.tree.consistencyProof Digest.combine old new).mapError .merkle

end AuditedLedger

end TamperEvident
