import TamperEvident.Ledger.Audit
import TamperEvident.Ledger.Producer
import TamperEvident.Ledger.Requirements
import TamperEvident.Ledger.Snapshot.Binary
import TamperEvident.Ledger.Snapshot.Json
import TamperEvident.Merkle.Json
import TamperEvident.Merkle.Root
import TamperEvident.Block.Cursor
import TamperEvident.Varint.Word
import TamperEvident.Proofs.Block.RoundTrip
import TamperEvident.Proofs.Ledger.Acknowledgement
import TamperEvident.Proofs.Ledger.Audited
import TamperEvident.Proofs.Ledger.Authorship
import TamperEvident.Proofs.Ledger.Cleanliness
import TamperEvident.Proofs.Ledger.Context
import TamperEvident.Proofs.Ledger.LinkedChain
import TamperEvident.Proofs.Ledger.Resumption
import TamperEvident.Proofs.Ledger.TamperEvidence
import TamperEvident.Proofs.Ledger.Tracking
import TamperEvident.Proofs.Merkle.Completeness
import TamperEvident.Proofs.Merkle.Soundness
import TamperEvident.Proofs.Ledger.Judgement
import TamperEvident.Proofs.Ledger.Dependencies
import TamperEvident.Proofs.Block.Depth
import TamperEvident.Proofs.Ledger.Observers
import TamperEvident.Proofs.Merkle.Tiling
import TamperEvident.Proofs.Merkle.Permanence
import TamperEvident.Proofs.Merkle.Replica
import TamperEvident.Proofs.Merkle.Resolution
import TamperEvident.Proofs.Ledger.Replica
import TamperEvident.Merkle.InPlace
import TamperEvident.Proofs.Merkle.Atomicity
import TamperEvident.Proofs.Merkle.Carry
import TamperEvident.Proofs.Merkle.Tampering
import TamperEvident.Proofs.Merkle.Settled
import TamperEvident.Proofs.Ledger.FailedCalls
import TamperEvident.Proofs.Block.Cursor
import TamperEvident.Proofs.Block.Standalone
import TamperEvident.Proofs.Block.Limit
import TamperEvident.Ledger.Evaluation
import TamperEvident.Proofs.Ledger.Amendment
import TamperEvident.Proofs.Ledger.FirstBlock
import TamperEvident.Proofs.Block.Signing
import TamperEvident.Proofs.Ledger.Genesis
import TamperEvident.Proofs.Ledger.Snapshot.Truncation
import TamperEvident.Proofs.RecordedLinks
import TamperEvident.Proofs.Varint.Word
import TamperEvident.Proofs.Merkle.CoverWalk
import TamperEvident.Proofs.Merkle.Lineage
