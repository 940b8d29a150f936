import TamperEvident.Proofs.Ledger.Evaluation
import TamperEvident.Proofs.Ledger.FailedCalls
import TamperEvident.Proofs.Ledger.Judgement
import TamperEvident.Proofs.Ledger.Production

/-! What a validator without blocks does with what it is given. Only a policy that it can follow
founds a ledger; before that it stays as it was made, whatever it is given. -/

namespace TamperEvident

/-- The bytes are a policy with no layer around it, and the algorithms it names are there. -/
structure Founds (crypto : CryptoProvider) (limit : Nat) (raw payload : Bytes) (policy : Policy)
    (hasher : HashAlgorithm) (signer : SignatureAlgorithm) : Prop where
  parsed : Block.parse limit raw = .ok (.terminal raw (.policy 1 payload))
  accepted : Policy.parse 1 payload = .ok policy
  hashing : crypto.hashNamed policy.hashingAlgorithm = .ok hasher
  signing : crypto.signatureNamed policy.signingAlgorithm = .ok signer

def refusal (limit : Nat) (raw : Bytes) : Problem :=
  match Block.parse limit raw with
  | .error _ => .malformedBlock
  | .ok b => if b.kind = .policy then .cannotParsePolicy else .blockTypeNotAllowed

theorem Policy.version_of_parse {version : UInt64} {payload : Bytes} {policy : Policy}
    (h : Policy.parse version payload = .ok policy) : version = 1 := by
  rw [parse] at h
  split at h
  · assumption
  · cases h

/-- Registering keys finds what is wrong with a block that adds them. -/
theorem Standing.registerAuthors_eq (s : Standing) (keys : List Bytes) :
    keys.foldl (Findings.registerAuthor s.hasher s.signer) (.start s.authors) =
      ⟨(s.ofTerminal (.addAuthors keys)).toArray, keys.foldl (enrol s.hasher) s.authors, false⟩ := by
  have hkeys : problemsOfKeys s.hasher s.signer s.authors keys = s.ofTerminal (.addAuthors keys) :=
    @problemsOfKeys_eq ⟨s.state, s.hasher, s.signer, ∅⟩ s.links s.authors [] keys
  rw [Findings.foldl_registerAuthor_eq, ← hkeys, Findings.extend, Findings.start,
    Array.empty_append]
  rfl

namespace Validator

variable {crypto : CryptoProvider} {config : Config} {v : Validator} {raw payload : Bytes}
  {policy : Policy} {hasher : HashAlgorithm} {signer : SignatureAlgorithm}

theorem Reachable.eq_empty (hv : Reachable crypto config v) (hnone : v.state? = none) :
    v = .empty crypto config := by
  have hactive : v.active = none := Option.map_eq_none_iff.mp hnone
  obtain ⟨hlinks, hauthors⟩ := hv.consistent.blank hactive
  have hcrypto := hv.crypto_eq
  have hconfig := hv.config_eq
  obtain ⟨crypto', config', active, links, authors⟩ := v
  subst hcrypto hconfig hactive hlinks hauthors
  rfl

/-- A policy is accepted only if its shapes can be read, so they can be read once more here. -/
theorem submit_of_founds (h : Founds crypto config.maxBlockDepth raw payload policy hasher signer) :
    let link := hasher.hash (hasher.hash raw)
    let state : LedgerState := ⟨policy, 1, hasher.hash raw, link, link⟩
    ∃ v', (Validator.empty crypto config).submit raw =
        (.ok ⟨some state, some (.terminal raw (.policy 1 payload)),
          (Standing.mk state hasher signer ∅ ∅).ofTerminal (.addAuthors policy.authorKeys)⟩, v') ∧
      v'.state? = some state ∧ v'.links = (∅ : LinkTable).insert 0 link ∧
      ∀ id, v'.authors[id]? = policy.authorKeys.find? (hasher.hash · == id) := by
  intro link state
  obtain ⟨allowed, hallowed⟩ := Policy.exists_allowedShapes (Policy.parse_eq_ok h.accepted).1
  have halgorithms := Policy.algorithms_eq_ok.mpr ⟨h.hashing, h.signing⟩
  have hactive : (Validator.empty crypto config).active = none := rfl
  have hblock : (Submission.bytes raw).block? (Validator.empty crypto config).config.maxBlockDepth =
      some (.terminal raw (.policy 1 payload)) := Submission.block?_bytes.mpr h.parsed
  have hreturned : (Submission.bytes raw).returned config.maxBlockDepth =
      some (.terminal raw (.policy 1 payload)) := hblock
  have hkeys := (Standing.mk state hasher signer ∅ ∅).registerAuthors_eq policy.authorKeys
  refine ⟨⟨crypto, config, some ⟨state, hasher, signer, allowed⟩, (∅ : LinkTable).insert 0 link,
    policy.authorKeys.foldl (enrol hasher) ∅⟩, ?_, rfl, rfl, fun id => ?_⟩
  · change (Validator.empty crypto config).receive (.bytes raw) = _
    rw [receive_of_block? hblock,
      submitBlock_founding hactive h.accepted halgorithms hallowed]
    simp only [Validator.empty, hkeys, hreturned, LedgerState.headIndex_genesis]
    rfl
  · rw [getElem?_foldl_enrol]
    exact Option.none_or

theorem submitGenesis_refused {b : Block}
    (h : ∀ raw version payload policy hasher signer,
      b = .terminal raw (.policy version payload) → Policy.parse version payload = .ok policy →
        policy.algorithms v.crypto ≠ .ok (hasher, signer)) :
    v.submitGenesis b =
      (⟨none, none, [if b.kind = .policy then .cannotParsePolicy else .blockTypeNotAllowed]⟩, v) := by
  unfold submitGenesis
  cases b with
  | wrapped raw around inner => cases around <;> rfl
  | terminal raw content =>
    cases content with
    | data payload => rfl
    | reference hashes => rfl
    | addAuthors keys => rfl
    | ack index link => rfl
    | policy version payload =>
      dsimp only
      cases hpolicy : Policy.parse version payload with
      | error e => rfl
      | ok policy =>
        dsimp only
        cases halgorithms : policy.algorithms v.crypto with
        | error e => rfl
        | ok algorithms => exact absurd halgorithms (h _ _ _ _ _ _ rfl hpolicy)

theorem submit_of_not_founds
    (h : ¬ ∃ payload policy hasher signer,
      Founds crypto config.maxBlockDepth raw payload policy hasher signer) :
    (Validator.empty crypto config).submit raw =
      (.ok ⟨none, (Block.parse config.maxBlockDepth raw).toOption,
        [refusal config.maxBlockDepth raw]⟩, .empty crypto config) := by
  rw [refusal, submit]
  change (match Block.parse config.maxBlockDepth raw with | .error _ => _ | .ok b => _) = _
  cases hparse : Block.parse config.maxBlockDepth raw with
  | error e => rfl
  | ok b =>
    have hunfit : ∀ raw version payload policy hasher signer,
        b = .terminal raw (.policy version payload) → Policy.parse version payload = .ok policy →
          policy.algorithms (Validator.empty crypto config).crypto ≠ .ok (hasher, signer) := by
      rintro raw' version payload policy hasher signer rfl hpolicy halgorithms
      obtain rfl : raw' = raw := Block.raw_parse hparse
      obtain rfl := Policy.version_of_parse hpolicy
      obtain ⟨hhash, hsign⟩ := Policy.algorithms_eq_ok.mp halgorithms
      exact h ⟨_, _, _, _, hparse, hpolicy, hhash, hsign⟩
    have hactive : (Validator.empty crypto config).active = none := rfl
    simp only [submitBlock, hactive, submitGenesis_refused hunfit]
    rfl

theorem runFrom_of_stateless {inputs : List Submission}
    (h : ∀ answer ∈ v.answersFrom inputs, stateOf answer = none) : v.runFrom inputs = v := by
  induction inputs with
  | nil => rfl
  | cons x rest ih =>
    rw [answersFrom, List.forall_mem_cons] at h
    obtain ⟨hanswer, hrest⟩ := h
    have hkept : (v.receive x).2 = v := by
      cases hx : (v.receive x).1 with
      | error e => exact receive_error hx
      | ok report =>
        have ht := transition_receive v x
        rw [hx] at ht hanswer
        exact ht.eq_of_stateless hanswer
    rw [hkept] at hrest
    rw [runFrom_cons, hkept, ih hrest]

end Validator

/-- A validator that has no state yet is one that was never used. It comes by one exactly from a
policy of version 1 with no layer around it that is accepted and names algorithms that are there,
and then nothing but the keys of the policy can be reported. Anything else is refused for one
reason and leaves the validator as it is, however often that happens. -/
theorem only_a_fitting_policy_founds {crypto : CryptoProvider} {config : Config} {v : Validator}
    (hv : Validator.Reachable crypto config v) (hnone : v.state? = none) :
    v = .empty crypto config ∧
    (∀ raw, (Evaluation.submit raw).outcome v = v.submit raw) ∧
    (∀ raw, (∃ s, stateOf (v.submit raw).1 = some s) ↔ ∃ payload policy hasher signer,
      Founds crypto config.maxBlockDepth raw payload policy hasher signer) ∧
    (∀ raw payload policy hasher signer,
      Founds crypto config.maxBlockDepth raw payload policy hasher signer →
        let link := hasher.hash (hasher.hash raw)
        let state : LedgerState := ⟨policy, 1, hasher.hash raw, link, link⟩
        ∃ v', v.submit raw =
            (.ok ⟨some state, some (.terminal raw (.policy 1 payload)),
              (Standing.mk state hasher signer ∅ ∅).ofTerminal (.addAuthors policy.authorKeys)⟩,
              v') ∧
          v'.state? = some state ∧ v'.links = (∅ : LinkTable).insert 0 link ∧
          ∀ id, v'.authors[id]? = policy.authorKeys.find? (hasher.hash · == id)) ∧
    (∀ raw, (¬ ∃ payload policy hasher signer,
        Founds crypto config.maxBlockDepth raw payload policy hasher signer) →
      v.submit raw = (.ok ⟨none, (Block.parse config.maxBlockDepth raw).toOption,
        [refusal config.maxBlockDepth raw]⟩, v)) ∧
    ∀ inputs, (∀ answer ∈ v.answersFrom inputs, stateOf answer = none) →
      v.runFrom inputs = .empty crypto config ∧
      ∀ later, v.answersFrom (inputs ++ later) =
        v.answersFrom inputs ++ (Validator.empty crypto config).answersFrom later := by
  obtain rfl := hv.eq_empty hnone
  refine ⟨rfl, fun raw => Evaluation.outcome_submit raw _, fun raw => ⟨?_, ?_⟩,
    fun raw payload policy hasher signer => Validator.submit_of_founds,
    fun raw => Validator.submit_of_not_founds, fun inputs h => ?_⟩
  · rintro ⟨s, hs⟩
    by_contra h
    rw [Validator.submit_of_not_founds h] at hs
    cases hs
  · rintro ⟨payload, policy, hasher, signer, hfounds⟩
    obtain ⟨v', hsubmit, _⟩ := Validator.submit_of_founds hfounds
    rw [hsubmit]
    exact ⟨_, rfl⟩
  · have hrun := Validator.runFrom_of_stateless h
    refine ⟨hrun, fun later => ?_⟩
    rw [Validator.answersFrom_append, hrun]

namespace Sample

theorem founds : Founds provider 8 raw policy.payload policy checksum stamp :=
  ⟨Producer.parse_encode_policy (by decide) 1 policy.payload, parse_policy, rfl, rfl⟩

end Sample

/-- Bytes that are no block, and then a policy. -/
theorem only_a_fitting_policy_founds_later :
    let v := ((Validator.empty Sample.provider {}).receive (.bytes [0])).2
    Validator.Reachable Sample.provider {} v ∧ v.state? = none ∧ v = .empty Sample.provider {} ∧
    ∃ v', v.submit Sample.raw = (.ok ⟨some Sample.genesis,
        some (.terminal Sample.raw (.policy 1 Sample.policy.payload)), []⟩, v') ∧
      v'.links = (∅ : LinkTable).insert 0 Sample.genesis.headLinkHash := by
  intro v
  have hv : Validator.Reachable Sample.provider {} v := .received .empty (.bytes [0])
  obtain ⟨heq, _, _, hfounds, _⟩ := only_a_fitting_policy_founds hv rfl
  obtain ⟨v', hsubmit, _, hlinks, _⟩ := hfounds Sample.raw _ _ _ _ Sample.founds
  have hkeys : (Standing.mk Sample.genesis Sample.checksum Sample.stamp ∅ ∅).ofTerminal
      (.addAuthors Sample.policy.authorKeys) = [] := by
    simp [Standing.ofTerminal, Standing.ofKey, Problem.when, Sample.policy, Sample.stamp]
  have hreport : v.submit Sample.raw = (.ok ⟨some Sample.genesis,
      some (.terminal Sample.raw (.policy 1 Sample.policy.payload)),
      (Standing.mk Sample.genesis Sample.checksum Sample.stamp ∅ ∅).ofTerminal
        (.addAuthors Sample.policy.authorKeys)⟩, v') := hsubmit
  rw [hkeys] at hreport
  exact ⟨hv, rfl, heq, v', hreport, hlinks⟩

end TamperEvident
