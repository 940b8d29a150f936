import TamperEvident.Ledger.Producer
import TamperEvident.Proofs.Block.Content
import TamperEvident.Proofs.Ledger.AllowedShapes
import TamperEvident.Proofs.Ledger.LinkedChain
import TamperEvident.Proofs.Ledger.PolicyText

/-! What a producer makes. The first block of a ledger is one that a validator
without blocks accepts, with all shapes of the default policy allowed, and a block
that is built is the proposed one with its signatures made. -/

namespace TamperEvident

theorem Policy.encode_toDraft (policy : Policy) :
    policy.toDraft.encode = .ok (Terminal.policy version policy.payload).encode := rfl

namespace Producer

variable {crypto : CryptoProvider} {config : Config} {ledgerKey raw : Bytes}
  {authorKeys : List Bytes} {maxSize : UInt64} {p : Producer}

theorem allowedShapes_genesisPolicy :
    ∃ allowed, (genesisPolicy config ledgerKey authorKeys maxSize).allowedShapes = .ok allowed ∧
      ∀ s, s ∈ allowed ↔ s ∈ if authorKeys = [] then unsignedShapes else signedShapes := by
  have hshapes : (genesisPolicy config ledgerKey authorKeys maxSize).allowedBlocks =
      (if authorKeys = [] then unsignedShapes else signedShapes).map Shape.toBytes := by
    cases authorKeys <;> rfl
  have hdistinct : (if authorKeys = [] then unsignedShapes else signedShapes).Nodup := by
    split <;> decide
  have hentries : ShapeEntries (genesisPolicy config ledgerKey authorKeys maxSize).allowedBlocks :=
    hshapes ▸ shapeEntries_map hdistinct
  obtain ⟨allowed, hallowed⟩ := Policy.exists_allowedShapes_iff.mpr hentries
  refine ⟨allowed, hallowed, ?_⟩
  intro s
  rw [Policy.mem_allowedShapes hallowed, hshapes]
  simp [Shape.toBytes_inj]

theorem validate_genesisPolicy (hmax : maxSize ≠ 0) :
    (genesisPolicy config ledgerKey authorKeys maxSize).validate = .ok () := by
  obtain ⟨allowed, hallowed, _⟩ :=
    @allowedShapes_genesisPolicy config ledgerKey authorKeys maxSize
  rw [Policy.validate, if_neg (show ¬ (genesisPolicy ..).maxBlockSize = 0 from hmax), hallowed]
  rfl

/-- The policy of a new ledger is read back, unless it allows no block at all. -/
theorem parse_genesisPolicy :
    Policy.parse Policy.version (genesisPolicy config ledgerKey authorKeys maxSize).payload =
      if maxSize = 0 then .error .zeroMaxBlockSize
      else .ok (genesisPolicy config ledgerKey authorKeys maxSize) := by
  have hnesting : (Json.Value.object [("version", .string "1.0.0")]).nesting ≤
      Json.nestingLimit - 1 := by decide
  rw [@Policy.parse_payload (genesisPolicy config ledgerKey authorKeys maxSize) ⟨trivial, trivial⟩
    hnesting]
  by_cases hmax : maxSize = 0
  · rw [if_pos hmax, Policy.validate,
      if_pos (show (genesisPolicy config ledgerKey authorKeys maxSize).maxBlockSize = 0 from hmax)]
    rfl
  · rw [if_neg hmax, validate_genesisPolicy hmax]
    rfl

/-- A policy has no field with a length in front, so nothing bounds its size. -/
theorem parse_encode_policy {limit : Nat} (hlimit : limit ≠ 0) (version : UInt64)
    (payload : Bytes) :
    Block.parse limit (Terminal.policy version payload).encode =
      .ok (.terminal (Terminal.policy version payload).encode (.policy version payload)) :=
  Block.parse_terminal hlimit trivial

theorem submitBlock_genesisPolicy {hasher : HashAlgorithm} {signer : SignatureAlgorithm}
    (hmax : maxSize ≠ 0)
    (halgorithms : (genesisPolicy config ledgerKey authorKeys maxSize).algorithms crypto =
      .ok (hasher, signer)) (raw : Bytes) :
    let policy := genesisPolicy config ledgerKey authorKeys maxSize
    let state := LedgerState.genesis hasher policy raw
    let f := authorKeys.foldl (Findings.registerAuthor hasher signer) (.start ∅)
    ∃ allowed, (∀ s, s ∈ allowed ↔ s ∈ if authorKeys = [] then unsignedShapes else signedShapes) ∧
      (Validator.empty crypto config).submitBlock
          (.terminal raw (.policy Policy.version policy.payload)) =
        (.ok ⟨some state, none, f.problems.toList⟩,
          ⟨crypto, config, some ⟨state, hasher, signer, allowed⟩,
            (∅ : LinkTable).insert state.headIndex state.headLinkHash, f.authors⟩) := by
  intro policy state f
  obtain ⟨allowed, hallowed, hmem⟩ :=
    @allowedShapes_genesisPolicy config ledgerKey authorKeys maxSize
  have hactive : (Validator.empty crypto config).active = none := rfl
  have hparse := @parse_genesisPolicy config ledgerKey authorKeys maxSize
  rw [if_neg hmax] at hparse
  exact ⟨allowed, hmem, Validator.submitBlock_founding hactive hparse halgorithms hallowed⟩

theorem block?_genesisPolicy {limit : Nat} (hlimit : limit ≠ 0) (policy : Policy) :
    let raw := (Terminal.policy Policy.version policy.payload).encode
    (Submission.bytes raw).block? limit =
      some (.terminal raw (.policy Policy.version policy.payload)) :=
  Submission.block?_bytes.mpr (parse_encode_policy hlimit Policy.version policy.payload)

/-- A new ledger is made just when a block may have one layer, blocks may have a
size, and both algorithms are known. -/
theorem genesis_eq_ok :
    let policy := genesisPolicy config ledgerKey authorKeys maxSize
    genesis crypto config ledgerKey authorKeys maxSize = .ok (raw, p) ↔
      config.maxBlockDepth ≠ 0 ∧ maxSize ≠ 0 ∧
      raw = (Terminal.policy Policy.version policy.payload).encode ∧
      ∃ hasher signer, policy.algorithms crypto = .ok (hasher, signer) ∧
        p = ⟨crypto, config, .genesis hasher policy raw⟩ := by
  intro policy
  constructor
  · intro h
    obtain ⟨raw', hraw, h⟩ := bind_eq_ok.mp h
    have hraw' := Except.ok.inj ((mapError_eq_ok.mp hraw).symm.trans policy.encode_toDraft)
    obtain ⟨report, hreport, h⟩ := bind_eq_ok.mp h
    have ht := (Validator.empty crypto config).transition_receive (.bytes raw')
    rw [Validator.receive, hreport] at ht
    generalize ((Validator.empty crypto config).submit raw').2 = v' at ht
    cases ht with
    | unread => cases h
    | refused => cases h
    | extended hactive => cases hactive
    | malformed hactive => cases hactive
    | founded hactive hblock hpolicy halgorithms hallowed hauthors hstate =>
      obtain ⟨rfl, rfl⟩ := Prod.mk.inj (Except.ok.inj h)
      have hlimit : config.maxBlockDepth ≠ 0 := by
        intro hzero
        rw [Submission.block?_bytes, Validator.empty, hzero] at hblock
        cases hblock
      rw [hraw', Validator.empty, block?_genesisPolicy hlimit] at hblock
      obtain ⟨_, hcontent⟩ := Block.terminal.inj (Option.some.inj hblock)
      obtain ⟨rfl, rfl⟩ := Terminal.policy.inj hcontent
      rw [parse_genesisPolicy] at hpolicy
      split at hpolicy
      · cases hpolicy
      · rename_i hmax
        obtain rfl := Except.ok.inj hpolicy
        exact ⟨hlimit, hmax, hraw', _, _, halgorithms, by rw [← hstate]; rfl⟩
  · rintro ⟨hlimit, hmax, rfl, hasher, signer, halgorithms, rfl⟩
    obtain ⟨allowed, _, hfound⟩ := submitBlock_genesisPolicy hmax halgorithms
      (Terminal.policy Policy.version policy.payload).encode
    have hreceive := @Validator.receive_of_block? (Validator.empty crypto config) _ _
      (block?_genesisPolicy hlimit policy)
    rw [hfound, Validator.receive] at hreceive
    refine bind_eq_ok.mpr ⟨_, mapError_eq_ok.mpr policy.encode_toDraft, ?_⟩
    exact bind_eq_ok.mpr ⟨_, congrArg Prod.fst hreceive, rfl⟩

end Producer

namespace Proposal

variable {p signed : Proposal} {author : KeyPair} {hasher : HashAlgorithm}
  {signer : SignatureAlgorithm}

theorem authorSignature_eq_ok
    (h : p.producer.state.policy.algorithms p.producer.crypto = .ok (hasher, signer)) :
    p.authorSignature author = .ok signed ↔
      signed = p.wrap (.authorSignature (hasher.hash author.publicKey)
        (.deferred (signer.signer author.secretKey))) := by
  rw [authorSignature, bind_eq_ok, h]
  constructor
  · rintro ⟨_, hfound, hwrap⟩
    obtain rfl := Except.ok.inj hfound
    exact (Except.ok.inj hwrap).symm
  · rintro rfl
    exact ⟨_, rfl, rfl⟩

theorem build_eq_ok {raw : Bytes} {next : Producer}
    (h : p.producer.crypto.hashNamed p.producer.state.policy.hashingAlgorithm = .ok hasher) :
    p.build = .ok (raw, next) ↔
      p.draft.encode = .ok raw ∧ ∃ b, Block.parse p.producer.config.maxBlockDepth raw = .ok b ∧
        next = { p.producer with
          state := p.producer.state.advance hasher raw b.updatesContext } := by
  rw [build, bind_eq_ok, h]
  constructor
  · rintro ⟨b, hb, hnext⟩
    obtain ⟨raw', hraw, hparse⟩ := bind_eq_ok.mp (mapError_eq_ok.mp hb)
    obtain ⟨rfl, rfl⟩ := Prod.mk.inj (Except.ok.inj hnext)
    obtain rfl := Block.raw_parse hparse
    exact ⟨hraw, b, hparse, rfl⟩
  · rintro ⟨hraw, b, hparse, rfl⟩
    obtain rfl := Block.raw_parse hparse
    exact ⟨b, mapError_eq_ok.mpr (bind_eq_ok.mpr ⟨_, hraw, hparse⟩), rfl⟩

/-- What can be made of a proposal by wrapping it, in any order and number. -/
inductive Wraps (start : Proposal) : Proposal → Prop
  | refl : Wraps start start
  | authorSignature {q signed : Proposal} {author : KeyPair} (h : Wraps start q)
      (hsigned : q.authorSignature author = .ok signed) : Wraps start signed
  | inContext {q : Proposal} (h : Wraps start q) : Wraps start q.inContext
  | previousBlock {q : Proposal} (h : Wraps start q) : Wraps start q.previousBlock
  | updateContext {q : Proposal} (h : Wraps start q) : Wraps start q.updateContext

theorem Wraps.keeps {start q : Proposal} (h : start.Wraps q) :
    q.producer = start.producer ∧ q.draft.content = start.draft.content := by
  induction h with
  | refl => exact ⟨rfl, rfl⟩
  | authorSignature h hsigned ih =>
    obtain ⟨_, _, hwrap⟩ := bind_eq_ok.mp hsigned
    obtain rfl := Except.ok.inj hwrap
    exact ih
  | inContext h ih => exact ih
  | previousBlock h ih => exact ih
  | updateContext h ih => exact ih

/-- A proposal that can be written is built, unless it is nested too deep. -/
theorem exists_build {raw : Bytes}
    (h : p.producer.crypto.hashNamed p.producer.state.policy.hashingAlgorithm = .ok hasher)
    (hencode : p.draft.encode = .ok raw) (hsize : raw.length < 2 ^ 64)
    (hdepth : p.draft.depth ≤ p.producer.config.maxBlockDepth) :
    ∃ update, p.build = .ok (raw, { p.producer with
      state := p.producer.state.advance hasher raw update }) := by
  obtain ⟨b, hparse, _⟩ :=
    @Draft.parseWindow_of_encode _ p.producer.config.maxBlockDepth _ ⟨0, raw⟩ hencode hsize hdepth
  exact ⟨b.updatesContext, (build_eq_ok h).mpr ⟨hencode, b, hparse, rfl⟩⟩

end Proposal

theorem SignatureAlgorithm.sign_of_signatureOver {s : SignatureAlgorithm}
    {secretKey message signature : Bytes}
    (h : (SignatureSource.deferred (s.signer secretKey)).signatureOver message = .ok signature) :
    s.sign secretKey message = .ok signature := by
  rw [SignatureSource.signatureOver] at h
  split at h
  · cases h
  · rename_i made hmade
    split at h
    · obtain rfl := Except.ok.inj h
      exact mapError_eq_ok.mp hmade
    · cases h

end TamperEvident
