import TamperEvident.Proofs.Ledger.Cleanliness
import TamperEvident.Proofs.Ledger.Reachable

/-! A producer foresees the state of a validator. It reads its block back and looks
for layers that update the context; the validator checks the block, and whatever is
wrong with it, they come to the same state. -/

namespace TamperEvident

/-- Blocks made one after another, each by the producer that follows the one before,
with the producers that follow them. There may be anything wrong with them, but none
brings a policy. -/
inductive Producer.Makes : Producer → List (Bytes × Producer) → Prop
  | nil {p : Producer} : Makes p []
  | cons {p next : Producer} {content : Terminal} {proposal : Proposal} {raw : Bytes}
      {made : List (Bytes × Producer)} (hkind : content.kind ≠ .policy)
      (hwraps : (p.propose content).Wraps proposal) (hbuild : proposal.build = .ok (raw, next))
      (hmade : next.Makes made) : Makes p ((raw, next) :: made)

/-- The answer to a block that comes with the block and the state foreseen for it. -/
def Producer.Foresaw (made : Bytes × Producer) (answer : Except LedgerError Report) : Prop :=
  ∃ report b, answer = .ok report ∧ report.block = some b ∧ b.raw = made.1 ∧
    report.state = some made.2.state

namespace Validator

variable {crypto : CryptoProvider} {config : Config} {v : Validator}

theorem Reachable.receive_built (h : Reachable crypto config v) {s : LedgerState}
    (hs : v.state? = some s) {content : Terminal} {proposal : Proposal} {raw : Bytes}
    {next : Producer} (hkind : content.kind ≠ .policy)
    (hwraps : ((⟨crypto, config, s⟩ : Producer).propose content).Wraps proposal)
    (hbuild : proposal.build = .ok (raw, next)) :
    ∃ s', next = ⟨crypto, config, s'⟩ ∧ Producer.Foresaw (raw, next) (v.receive (.bytes raw)).1 ∧
      (v.receive (.bytes raw)).2.state? = some s' := by
  obtain ⟨a, hactive, rfl⟩ := Option.map_eq_some_iff.mp hs
  obtain ⟨hproducer, hcontent⟩ := hwraps.keeps
  have hhash := hashNamed_of_algorithms (h.algorithms hactive)
  obtain ⟨hencode, b, hparse, rfl⟩ := (@Proposal.build_eq_ok proposal a.hasher raw next
    (by rw [hproducer]; exact hhash)).mp hbuild
  rw [hproducer] at hparse ⊢
  have hkind' : b.content.kind ≠ .policy := by
    rw [Draft.content_of_parse hencode hparse, hcontent]
    exact hkind
  have hblock : (Submission.bytes raw).block? v.config.maxBlockDepth = some b := by
    rw [h.config_eq]
    exact Submission.block?_bytes.mpr hparse
  rw [receive_of_ne_policy hactive hblock hkind']
  exact ⟨_, rfl, ⟨_, b, rfl, hblock, Block.raw_parse hparse, rfl⟩, rfl⟩

end Validator

/-- A validator and a producer that share a state go on to share it, as long as the
validator is given what the producer builds. Every block that is built is read and
committed to, whatever problems it has. -/
theorem foreseen_run {crypto : CryptoProvider} {config : Config} {v : Validator} {s : LedgerState}
    {made : List (Bytes × Producer)} (hv : Validator.Reachable crypto config v)
    (hs : v.state? = some s) (hmade : (⟨crypto, config, s⟩ : Producer).Makes made) :
    let inputs := made.map fun m => Submission.bytes m.1
    List.Forall₂ Producer.Foresaw made (v.answersFrom inputs) ∧
      (v.runFrom inputs).state? = some ((made.map fun m => m.2.state).getLastD s) := by
  intro inputs
  generalize hp : (⟨crypto, config, s⟩ : Producer) = p at hmade
  induction hmade generalizing v s with
  | nil => exact ⟨.nil, hs⟩
  | cons hkind hwraps hbuild hmade ih =>
    subst hp
    obtain ⟨s', rfl, hforesaw, hs'⟩ := hv.receive_built hs hkind hwraps hbuild
    obtain ⟨hanswers, hstate⟩ := ih (hv.received _) hs' rfl
    refine ⟨.cons hforesaw hanswers, ?_⟩
    rw [List.map_cons, List.getLastD_cons]
    exact hstate

namespace Sample

theorem exists_reachable_founded :
    ∃ v, Validator.Reachable provider {} v ∧ v.state? = some genesis := by
  obtain ⟨allowed, hfounding⟩ := receive_founding
  refine ⟨_, .received .empty (.block founding), ?_⟩
  rw [hfounding]
  rfl

theorem exists_makes_cons {s : LedgerState} {content : Terminal} {proposal : Proposal}
    {raw : Bytes} (hkind : content.kind ≠ .policy)
    (hwraps : ((⟨provider, {}, s⟩ : Producer).propose content).Wraps proposal)
    (hencode : proposal.draft.encode = .ok raw) (hsize : raw.length < 2 ^ 64)
    (hdepth : proposal.draft.depth ≤ 8) :
    ∃ s', ∀ made, (⟨provider, {}, s'⟩ : Producer).Makes made →
      (⟨provider, {}, s⟩ : Producer).Makes ((raw, ⟨provider, {}, s'⟩) :: made) := by
  obtain ⟨hproducer, _⟩ := hwraps.keeps
  have hhash : proposal.producer.crypto.hashNamed
      proposal.producer.state.policy.hashingAlgorithm = .ok checksum := by
    rw [hproducer]
    rfl
  have hroom : proposal.draft.depth ≤ proposal.producer.config.maxBlockDepth := by
    rw [hproducer]
    exact hdepth
  obtain ⟨update, hbuild⟩ := Proposal.exists_build hhash hencode hsize hroom
  rw [hproducer] at hbuild
  exact ⟨_, fun made hmade => .cons hkind hwraps hbuild hmade⟩

end Sample

/-- Data that updates the context twice, and a reference signed by an author who is
not registered, in shapes that the policy does not allow. -/
theorem foreseen_misshapen :
    ∃ v made, Validator.Reachable Sample.provider {} v ∧ v.state? = some Sample.genesis ∧
      (⟨Sample.provider, {}, Sample.genesis⟩ : Producer).Makes made ∧ made.length = 2 ∧
      List.Forall₂ Producer.Foresaw made (v.answersFrom (made.map fun m => .bytes m.1)) := by
  obtain ⟨v, hv, hs⟩ := Sample.exists_reachable_founded
  have hencode : (Draft.wrapped .updateContext (.wrapped .updateContext
      (.terminal (.data [5])))).encode = .ok [85, 85, 68, 5] := by cbv
  obtain ⟨s', hfirst⟩ := @Sample.exists_makes_cons Sample.genesis (.data [5]) _ _
    Kind.noConfusion (.updateContext (.updateContext .refl)) hencode (by decide) (by decide)
  have hsigned := (@Proposal.authorSignature_eq_ok
    ((⟨Sample.provider, {}, s'⟩ : Producer).propose (.reference [[5]])) _ ⟨[2], [2]⟩ _ _ rfl).mpr rfl
  obtain ⟨s'', hsecond⟩ := @Sample.exists_makes_cons s' (.reference [[5]]) _ _
    Kind.noConfusion (.authorSignature .refl hsigned) Sample.encode_reference (by decide)
    (show 2 ≤ 8 by decide)
  have hmade := hfirst _ (hsecond [] .nil)
  exact ⟨v, _, hv, hs, hmade, rfl, (foreseen_run hv hs hmade).1⟩

end TamperEvident
