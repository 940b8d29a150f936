import TamperEvident.Ledger.Config
import TamperEvident.Ledger.Snapshot.Basic

/-! The incremental validator of one ledger. The first policy block it accepts
makes it active; from then on every block it is given extends the chain, with
whatever problems it has, since the ledger commits to all that was submitted. -/

namespace TamperEvident

/-- A state with what is derived from its policy. -/
structure ActiveLedger where
  state : LedgerState
  hasher : HashAlgorithm
  signer : SignatureAlgorithm
  allowed : ShapeSet

structure Validator where
  crypto : CryptoProvider
  config : Config
  active : Option ActiveLedger
  links : LinkTable
  authors : AuthorTable

/-- The outcome of one block. There is no state before a first block is accepted. -/
structure Report where
  state : Option LedgerState
  block : Option Block
  problems : List Problem

namespace Report

def isClean (r : Report) : Bool := r.problems.isEmpty

def has (r : Report) (p : Problem) : Bool := r.problems.contains p

def blockCount (r : Report) : UInt64 := (r.state.map LedgerState.blockCount).getD 0

end Report

/-- What the checks of a block's layers have found so far, in order. -/
structure Findings where
  problems : Array Problem
  authors : AuthorTable
  updatesContext : Bool

namespace Findings

def start (authors : AuthorTable) : Findings := ⟨#[], authors, false⟩

def report (f : Findings) (p : Problem) : Findings := { f with problems := f.problems.push p }

def reportIf (f : Findings) (bad : Bool) (p : Problem) : Findings := if bad then f.report p else f

/-- Registers a key under its hash. A key of the wrong length is registered all
the same, and an id that is known keeps its key. -/
def registerAuthor (hasher : HashAlgorithm) (signer : SignatureAlgorithm) (f : Findings)
    (key : Bytes) : Findings :=
  let f := f.reportIf (key.length != signer.publicKeyLength) .invalidAuthorKey
  let id := hasher.hash key
  if f.authors.contains id then f.report .authorAlreadyPresent
  else { f with authors := f.authors.insert id key }

def checkTerminal (a : ActiveLedger) (links : LinkTable) (f : Findings) : Terminal → Findings
  | .policy _ _ | .data _ => f
  | .reference hashes =>
    hashes.foldl (fun f hash => f.reportIf (hash.length != a.hasher.outputLength)
      .invalidHashLength) f
  | .addAuthors keys => keys.foldl (registerAuthor a.hasher a.signer) f
  | .ack index link =>
    match links[index]? with
    | none => f.report .blockNotFound
    | some known => f.reportIf (known != link) .blockLinkHashMismatch

/-- `inner` is the encoding of the block that the wrapper is around. -/
def checkWrapper (a : ActiveLedger) (f : Findings) (inner : Bytes) : Wrapper Bytes → Findings
  | .authorSignature author signature =>
    match f.authors[author]? with
    | none => f.report .authorNotFound
    | some key => f.reportIf (!a.signer.verify key inner signature) .invalidSignature
  | .previousBlock hash =>
    f.reportIf (hash != a.state.headBlockHash) .previousBlockHashMismatch
  | .inContext link => f.reportIf (link != a.state.contextLinkHash) .contextLinkHashMismatch
  | .updateContext => { f with updatesContext := true }

/-- Checks each layer from the outside in. A policy at the bottom is an error,
whatever the layers around it are. -/
def checkLayers (a : ActiveLedger) (links : LinkTable) (f : Findings) :
    Block → Except LedgerError Findings
  | .terminal _ (.policy _ _) => .error (.amendmentUnsupported a.state.blockCount)
  | .terminal _ content => .ok (f.checkTerminal a links content)
  | .wrapped _ wrapper inner => checkLayers a links (f.checkWrapper a inner.raw wrapper) inner

def ofWhole (a : ActiveLedger) (authors : AuthorTable) (b : Block) : Findings :=
  let f := (start authors).reportIf (a.state.policy.maxBlockSize.toNat < b.raw.length) .blockTooBig
  f.reportIf (!a.allowed.contains b.shape) .blockTypeNotAllowed

end Findings

def Policy.algorithms (crypto : CryptoProvider) (p : Policy) :
    Except CryptoError (HashAlgorithm × SignatureAlgorithm) := do
  let hasher ← crypto.hashNamed p.hashingAlgorithm
  let signer ← crypto.signatureNamed p.signingAlgorithm
  return (hasher, signer)

def ActiveLedger.of (crypto : CryptoProvider) (state : LedgerState) :
    Except LedgerError ActiveLedger := do
  let (hasher, signer) ← (state.policy.algorithms crypto).mapError .crypto
  let allowed ← state.policy.allowedShapes.mapError .policy
  return { state, hasher, signer, allowed }

namespace Validator

def empty (crypto : CryptoProvider) (config : Config) : Validator :=
  ⟨crypto, config, none, ∅, ∅⟩

def resume (crypto : CryptoProvider) (config : Config) (state : LedgerState) (links : LinkTable)
    (authors : AuthorTable) : Except LedgerError Validator := do
  (checkResumable state.blockCount state.headLinkHash links).mapError .inconsistentState
  let active ← ActiveLedger.of crypto state
  return ⟨crypto, config, some active, links, authors⟩

def ofSnapshot (crypto : CryptoProvider) (config : Config) (s : Snapshot) :
    Except LedgerError Validator := do
  let state ← s.state.mapError .policy
  resume crypto config state s.linkTable s.authorTable

def state? (v : Validator) : Option LedgerState := v.active.map ActiveLedger.state

def blockCount (v : Validator) : UInt64 := (v.state?.map LedgerState.blockCount).getD 0

/-- Nothing before a first block is accepted. -/
def snapshot? (v : Validator) : Option Snapshot :=
  v.state?.map fun s => .take s v.links v.authors

def install (v : Validator) (a : ActiveLedger) (next : LedgerState) : Validator :=
  { v with active := some { a with state := next } }

def recordLink (v : Validator) (s : LedgerState) : Validator :=
  { v with links := v.links.insert s.headIndex s.headLinkHash }

/-- The first block of a ledger: a policy with no layer around it. -/
def submitGenesis (v : Validator) (b : Block) : Report × Validator :=
  let refuse (p : Problem) : Report × Validator := (⟨none, none, [p]⟩, v)
  match b with
  | .terminal raw (.policy version payload) =>
    match Policy.parse version payload with
    | .error _ => refuse .cannotParsePolicy
    | .ok policy =>
      match policy.algorithms v.crypto, policy.allowedShapes with
      | .ok (hasher, signer), .ok allowed =>
        let f := policy.authorKeys.foldl (Findings.registerAuthor hasher signer)
          (.start v.authors)
        let state := LedgerState.genesis hasher policy raw
        let next := { v with active := some ⟨state, hasher, signer, allowed⟩, authors := f.authors }
        (⟨some state, none, f.problems.toList⟩, next.recordLink state)
      | _, _ => refuse .cannotParsePolicy
  | _ => refuse .blockTypeNotAllowed

/-- Evaluates a parsed block. The only error is a policy after the first block,
which changes nothing. -/
def submitBlock (v : Validator) (b : Block) : Except LedgerError Report × Validator :=
  match v.active with
  | none =>
    let (report, v) := v.submitGenesis b
    (.ok report, v)
  | some a =>
    match (Findings.ofWhole a v.authors b).checkLayers a v.links b with
    | .error e => (.error e, v)
    | .ok f =>
      let v := { v with authors := f.authors }
      let next := a.state.advance a.hasher b.raw f.updatesContext
      (.ok ⟨some next, none, f.problems.toList⟩, (v.install a next).recordLink next)

/-- Bytes that are no block. The ledger commits to them, but their link is not
recorded, so that nothing can acknowledge them. -/
def submitMalformed (v : Validator) (raw : Bytes) : Report × Validator :=
  match v.active with
  | none => (⟨none, none, [.malformedBlock]⟩, v)
  | some a =>
    let next := a.state.advance a.hasher raw false
    (⟨some next, none, [.malformedBlock]⟩, v.install a next)

def submit (v : Validator) (raw : Bytes) : Except LedgerError Report × Validator :=
  match Block.parse v.config.maxBlockDepth raw with
  | .error _ =>
    let (report, v) := v.submitMalformed raw
    (.ok report, v)
  | .ok b =>
    let (result, v) := v.submitBlock b
    (result.map fun report => { report with block := some b }, v)

end Validator

end TamperEvident
