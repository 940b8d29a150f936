import TamperEvident.Proofs.Ledger.FirstBlock

/-! When a new ledger can be made. A producer makes the first block only if a validator without
blocks takes it, and what that needs can be told from the settings: the keys do not matter, nor
does the text of the policy. -/

namespace TamperEvident

namespace Producer

/-- What a new ledger needs: a layer may be read, a block may have a size, and both algorithms are
there. -/
structure CanFound (crypto : CryptoProvider) (config : Config) (maxSize : UInt64) : Prop where
  depth : 1 ≤ config.maxBlockDepth
  size : 0 < maxSize
  hashing : ∃ hasher, crypto.hashNamed config.hashingAlgorithm = .ok hasher
  signing : ∃ signer, crypto.signatureNamed config.signingAlgorithm = .ok signer

variable {crypto : CryptoProvider} {config : Config} {ledgerKey raw payload : Bytes}
  {authorKeys : List Bytes} {maxSize : UInt64} {policy : Policy} {hasher : HashAlgorithm}
  {signer : SignatureAlgorithm} {limit : Nat} {p : Producer}

theorem genesis_isOk_iff :
    (∃ raw p, genesis crypto config ledgerKey authorKeys maxSize = .ok (raw, p)) ↔
      CanFound crypto config maxSize := by
  constructor
  · rintro ⟨raw, p, h⟩
    obtain ⟨hdepth, hsize, _, hasher, signer, halgorithms, _⟩ := genesis_eq_ok.mp h
    obtain ⟨hhash, hsign⟩ := Policy.algorithms_eq_ok.mp halgorithms
    exact ⟨Nat.pos_of_ne_zero hdepth, UInt64.pos_iff_ne_zero.mpr hsize, ⟨hasher, hhash⟩,
      ⟨signer, hsign⟩⟩
  · rintro ⟨hdepth, hsize, ⟨hasher, hhash⟩, ⟨signer, hsign⟩⟩
    have halgorithms : (genesisPolicy config ledgerKey authorKeys maxSize).algorithms crypto =
        .ok (hasher, signer) := Policy.algorithms_eq_ok.mpr ⟨hhash, hsign⟩
    exact ⟨_, _, genesis_eq_ok.mpr ⟨Nat.pos_iff_ne_zero.mp hdepth, UInt64.pos_iff_ne_zero.mp hsize,
      rfl, hasher, signer, halgorithms, rfl⟩⟩

/-- The bytes that were made found the ledger of their producer, however deep blocks may be. -/
theorem founds_of_genesis (hlimit : limit ≠ 0)
    (h : genesis crypto config ledgerKey authorKeys maxSize = .ok (raw, p)) :
    let policy := genesisPolicy config ledgerKey authorKeys maxSize
    ∃ hasher signer, Founds crypto limit raw policy.payload policy hasher signer ∧
      p = ⟨crypto, config, .genesis hasher policy raw⟩ := by
  intro policy
  obtain ⟨_, hsize, rfl, hasher, signer, halgorithms, rfl⟩ := genesis_eq_ok.mp h
  obtain ⟨hhash, hsign⟩ := Policy.algorithms_eq_ok.mp halgorithms
  have haccepted : Policy.parse Policy.version policy.payload = .ok policy := by
    rw [parse_genesisPolicy, if_neg hsize]
  exact ⟨hasher, signer, ⟨parse_encode_policy hlimit Policy.version policy.payload, haccepted,
    hhash, hsign⟩, rfl⟩

theorem canFound_of_founds
    (h : Founds crypto config.maxBlockDepth
      (Terminal.policy Policy.version
        (genesisPolicy config ledgerKey authorKeys maxSize).payload).encode
      payload policy hasher signer) : CanFound crypto config maxSize := by
  obtain ⟨hparsed, haccepted, hhash, hsign⟩ := h
  have hdepth : config.maxBlockDepth ≠ 0 := by
    intro hzero
    rw [hzero] at hparsed
    cases hparsed
  rw [parse_encode_policy hdepth] at hparsed
  obtain ⟨_, hcontent⟩ := Block.terminal.inj (Except.ok.inj hparsed)
  obtain ⟨_, rfl⟩ := Terminal.policy.inj hcontent
  have hread := (@parse_genesisPolicy config ledgerKey authorKeys maxSize).symm.trans haccepted
  split at hread
  · cases hread
  · rename_i hsize
    obtain rfl := Except.ok.inj hread
    exact ⟨Nat.pos_of_ne_zero hdepth, UInt64.pos_iff_ne_zero.mpr hsize, ⟨hasher, hhash⟩,
      ⟨signer, hsign⟩⟩

theorem refusal_policy {version : UInt64} :
    refusal limit (Terminal.policy version payload).encode =
      if limit = 0 then .malformedBlock else .cannotParsePolicy := by
  rw [refusal]
  by_cases hlimit : limit = 0
  · rw [if_pos hlimit, hlimit]
    rfl
  · rw [if_neg hlimit, parse_encode_policy hlimit]
    rfl

theorem genesis_of_not_canFound (h : ¬ CanFound crypto config maxSize) :
    genesis crypto config ledgerKey authorKeys maxSize = .error (.genesisRejected
      [if config.maxBlockDepth = 0 then .malformedBlock else .cannotParsePolicy]) := by
  let policy := genesisPolicy config ledgerKey authorKeys maxSize
  have hrefused := @Validator.submit_of_not_founds crypto config
    (Terminal.policy Policy.version policy.payload).encode
    fun ⟨_, _, _, _, hfounds⟩ => h (canFound_of_founds hfounds)
  rw [refusal_policy] at hrefused
  refine bind_eq_error.mpr (.inr ⟨_, mapError_eq_ok.mpr policy.encode_toDraft, ?_⟩)
  exact bind_eq_error.mpr (.inr ⟨_, congrArg Prod.fst hrefused, rfl⟩)

/-- A new ledger is made just when the settings allow it, whatever the keys are: however many there
are, of any length, and some of them twice. If they do not, there is one problem. If they do,
every validator without blocks that has the same algorithms and may read a layer takes the bytes
and gets to the state of the producer, and its policy is the one that was written. -/
theorem genesis_of_settings (crypto : CryptoProvider) (config : Config) (ledgerKey : Bytes)
    (authorKeys : List Bytes) (maxSize : UInt64) :
    ((∃ raw p, genesis crypto config ledgerKey authorKeys maxSize = .ok (raw, p)) ↔
      CanFound crypto config maxSize) ∧
    (¬ CanFound crypto config maxSize →
      genesis crypto config ledgerKey authorKeys maxSize = .error (.genesisRejected
        [if config.maxBlockDepth = 0 then .malformedBlock else .cannotParsePolicy])) ∧
    ∀ raw p, genesis crypto config ledgerKey authorKeys maxSize = .ok (raw, p) →
      p.crypto = crypto ∧ p.config = config ∧
      p.state.policy = genesisPolicy config ledgerKey authorKeys maxSize ∧
      ∀ config' : Config, 1 ≤ config'.maxBlockDepth →
        ∃ report v', (Validator.empty crypto config').submit raw = (.ok report, v') ∧
          report.state = some p.state ∧ v'.state? = some p.state := by
  refine ⟨genesis_isOk_iff, genesis_of_not_canFound, fun raw p h => ?_⟩
  obtain ⟨_, _, _, hp⟩ := founds_of_genesis Nat.one_ne_zero h
  refine ⟨by rw [hp], by rw [hp], by rw [hp]; rfl, fun config' hdepth => ?_⟩
  obtain ⟨hasher, signer, hfounds, rfl⟩ := founds_of_genesis (Nat.pos_iff_ne_zero.mp hdepth) h
  obtain ⟨v', hsubmit, hstate, _⟩ := Validator.submit_of_founds hfounds
  exact ⟨_, v', hsubmit, rfl, hstate⟩

/-- A key twice, keys of other lengths, and blocks so small that the first one is larger, all
found a ledger; blocks of no size do not, nor does a validator that may not read a layer. -/
theorem genesis_of_settings_sample :
    (∃ raw p, genesis Sample.provider {} [] [[1], [1], [2, 3], []] 1 = .ok (raw, p)) ∧
    genesis Sample.provider {} [] [[1], [1]] 0 = .error (.genesisRejected [.cannotParsePolicy]) ∧
    genesis Sample.provider { maxBlockDepth := 0 } [] [] 1 =
      .error (.genesisRejected [.malformedBlock]) := by
  obtain ⟨hmade, _⟩ := genesis_of_settings Sample.provider {} [] [[1], [1], [2, 3], []] 1
  obtain ⟨_, hsizeless, _⟩ := genesis_of_settings Sample.provider {} [] [[1], [1]] 0
  obtain ⟨_, hdepthless, _⟩ :=
    genesis_of_settings Sample.provider { maxBlockDepth := 0 } [] [] 1
  refine ⟨hmade.mpr ⟨by decide, by decide, ⟨_, rfl⟩, ⟨_, rfl⟩⟩, ?_, ?_⟩
  · exact hsizeless fun h => absurd h.size (by decide)
  · exact hdepthless fun h => absurd h.depth (by decide)

end Producer

end TamperEvident
