import TamperEvident.Ledger.Validator

/-! Making blocks that extend a known state. A producer does not change; several
blocks can be made side by side from one state. -/

namespace TamperEvident

def SignatureAlgorithm.signer (a : SignatureAlgorithm) (secretKey : Bytes) : Signer where
  signatureLength := a.signatureLength
  sign message := (a.sign secretKey message).mapError CryptoError.message

def SignatureAlgorithm.describeSigner (a : SignatureAlgorithm) : String :=
  "AuthorSigner(" ++ a.name ++ ", <redacted>)"

def SignatureSource.describe : SignatureSource → String
  | deferred signer => "Deferred \x7b signature_len: " ++ toString signer.signatureLength ++ " \x7d"
  | precomputed signature => "Precomputed(\"" ++ Hex.encode signature ++ "\")"

structure Producer where
  crypto : CryptoProvider
  config : Config
  state : LedgerState

/-- A block being wrapped, with the producer it came from. -/
structure Proposal where
  producer : Producer
  draft : Draft

namespace Producer

/-- Shapes for ledgers with authors: all is signed. -/
def signedShapes : List Shape := [
  [.authorSignature, .inContext, .updateContext, .addAuthors],
  [.authorSignature, .previousBlock, .updateContext, .addAuthors],
  [.authorSignature, .inContext, .updateContext, .data],
  [.authorSignature, .previousBlock, .updateContext, .data],
  [.authorSignature, .ack],
  [.authorSignature, .reference]]

def unsignedShapes : List Shape := [
  [.inContext, .updateContext, .data],
  [.previousBlock, .updateContext, .data],
  [.reference]]

def defaultAllowedBlocks (withAuthors : Bool) : List Bytes :=
  (if withAuthors then signedShapes else unsignedShapes).map Shape.toBytes

def genesisPolicy (config : Config) (ledgerPublicKey : Bytes) (authorKeys : List Bytes)
    (maxBlockSize : UInt64) : Policy where
  ledgerPublicKey := ledgerPublicKey
  maxBlockSize := maxBlockSize
  hashingAlgorithm := config.hashingAlgorithm
  signingAlgorithm := config.signingAlgorithm
  allowedBlocks := defaultAllowedBlocks (!authorKeys.isEmpty)
  authorKeys := authorKeys
  applicationData := .member "version" (.string "1.0.0") trivial

/-- The first block of a new ledger, and the producer that follows it. The block
has to be accepted by a new validator. -/
def genesis (crypto : CryptoProvider) (config : Config) (ledgerPublicKey : Bytes)
    (authorKeys : List Bytes) (maxBlockSize : UInt64) : Except LedgerError (Bytes × Producer) := do
  let policy := genesisPolicy config ledgerPublicKey authorKeys maxBlockSize
  let raw ← policy.toDraft.encode.mapError .block
  let report ← ((Validator.empty crypto config).submit raw).1
  match report.state with
  | some state => return (raw, ⟨crypto, config, state⟩)
  | none => throw (.genesisRejected report.problems)

def propose (p : Producer) (content : Terminal) : Proposal := ⟨p, .terminal content⟩

def ack (p : Producer) : Proposal :=
  p.propose (.ack p.state.headIndex p.state.headLinkHash)

def describe (p : Producer) : String :=
  "BasicBlockBuilder \x7b block_count: " ++ toString p.state.blockCount ++ " \x7d"

end Producer

namespace Proposal

def wrap (p : Proposal) (wrapper : Wrapper SignatureSource) : Proposal :=
  { p with draft := .wrapped wrapper p.draft }

/-- Signs for an author, whose id is the hash of the public key. -/
def authorSignature (p : Proposal) (author : KeyPair) : Except LedgerError Proposal := do
  let (hasher, signer) ← (p.producer.state.policy.algorithms p.producer.crypto).mapError .crypto
  return p.wrap (.authorSignature (hasher.hash author.publicKey)
    (.deferred (signer.signer author.secretKey)))

def inContext (p : Proposal) : Proposal := p.wrap (.inContext p.producer.state.contextLinkHash)

def previousBlock (p : Proposal) : Proposal :=
  p.wrap (.previousBlock p.producer.state.headBlockHash)

def updateContext (p : Proposal) : Proposal := p.wrap .updateContext

/-- Encodes the block, reads it back within the configured depth, and gives the
producer that follows it. -/
def build (p : Proposal) : Except LedgerError (Bytes × Producer) := do
  let ⟨crypto, config, state⟩ := p.producer
  let block ← (p.draft.build config.maxBlockDepth).mapError .block
  let hasher ← (crypto.hashNamed state.policy.hashingAlgorithm).mapError .crypto
  return (block.raw, { p.producer with
    state := state.advance hasher block.raw block.updatesContext })

end Proposal

end TamperEvident
