import Mathlib.Data.List.Induction
import TamperEvident.Ledger.Requirements
import TamperEvident.Proofs.Ledger.Acknowledgement
import TamperEvident.Proofs.Ledger.Authorship
import TamperEvident.Proofs.Ledger.Reachable

/-! What blocks depend on, read off them beforehand, and what a validator finds when
it is given them. A scheduler that looks for what is missing from the tables foresees
just the complaints about unknown blocks and unknown authors. -/

namespace TamperEvident

namespace Requirements

def ofBlock (b : Block) : Requirements := ({} : Requirements).add b

def union (r s : Requirements) : Requirements where
  ackedIndexes := r.ackedIndexes ∪ s.ackedIndexes
  ackedLinks := r.ackedLinks ∪ s.ackedLinks
  newAuthors := r.newAuthors ∪ s.newAuthors
  signers := r.signers ∪ s.signers

structure Gathers (r : Requirements) (blocks : List Block) : Prop where
  ackedIndexes : ∀ i, i ∈ r.ackedIndexes ↔ ∃ b ∈ blocks, i ∈ (ofBlock b).ackedIndexes
  ackedLinks : ∀ link, link ∈ r.ackedLinks ↔ ∃ b ∈ blocks, link ∈ (ofBlock b).ackedLinks
  newAuthors : ∀ key, key ∈ r.newAuthors ↔ ∃ b ∈ blocks, key ∈ (ofBlock b).newAuthors
  signers : ∀ id, id ∈ r.signers ↔ ∃ b ∈ blocks, id ∈ (ofBlock b).signers

variable {r s t : Requirements}

theorem union_assoc : (r.union s).union t = r.union (s.union t) := by
  simp only [union, KeySet.union_assoc]

theorem addTerminal_eq_union (content : Terminal) :
    r.addTerminal content = r.union (({} : Requirements).addTerminal content) := by
  cases content with
  | policy version payload =>
    rw [addTerminal, addTerminal]
    cases Policy.parse version payload with
    | error e => simp only [union, KeySet.union_empty]
    | ok policy => simp only [union, KeySet.union_empty, KeySet.union_insertMany_empty]
  | data payload => simp only [addTerminal, union, KeySet.union_empty]
  | reference hashes => simp only [addTerminal, union, KeySet.union_empty]
  | addAuthors keys =>
    simp only [addTerminal, union, KeySet.union_empty, KeySet.union_insertMany_empty]
  | ack index link =>
    simp only [addTerminal, union, KeySet.union_empty, KeySet.union_insert_empty]

theorem addWrapper_eq_union (around : Wrapper Bytes) :
    r.addWrapper around = r.union (({} : Requirements).addWrapper around) := by
  cases around with
  | authorSignature author signature =>
    simp only [addWrapper, union, KeySet.union_empty, KeySet.union_insert_empty]
  | previousBlock hash => simp only [addWrapper, union, KeySet.union_empty]
  | inContext link => simp only [addWrapper, union, KeySet.union_empty]
  | updateContext => simp only [addWrapper, union, KeySet.union_empty]

/-- What was gathered before a block has no say in what is gathered from it. -/
theorem add_eq_union (b : Block) : r.add b = r.union (ofBlock b) := by
  induction b generalizing r with
  | terminal raw content => exact addTerminal_eq_union content
  | wrapped raw around inner ih =>
    have hwrapped : ofBlock (.wrapped raw around inner) =
        (({} : Requirements).addWrapper around).union (ofBlock inner) := ih
    rw [add, ih, addWrapper_eq_union, union_assoc, hwrapped]

theorem ofBlock_wrapped (raw : Bytes) (around : Wrapper Bytes) (inner : Block) :
    ofBlock (.wrapped raw around inner) =
      (({} : Requirements).addWrapper around).union (ofBlock inner) := add_eq_union inner

theorem gathers_nil : Gathers {} [] := by
  refine ⟨?_, ?_, ?_, ?_⟩ <;> intro x <;> simp

theorem Gathers.add {blocks : List Block} (h : r.Gathers blocks) (b : Block) :
    (r.add b).Gathers (blocks ++ [b]) := by
  rw [add_eq_union]
  refine ⟨fun i => ?_, fun link => ?_, fun key => ?_, fun id => ?_⟩
  · simp [union, h.ackedIndexes, or_and_right, exists_or]
  · simp [union, h.ackedLinks, or_and_right, exists_or]
  · simp [union, h.newAuthors, or_and_right, exists_or]
  · simp [union, h.signers, or_and_right, exists_or]

theorem gathers_foldl (blocks : List Block) : (blocks.foldl Requirements.add {}).Gathers blocks := by
  induction blocks using List.reverseRecOn with
  | nil => exact gathers_nil
  | append_singleton blocks b ih =>
    rw [List.foldl_append]
    exact ih.add b

/-- Only which blocks there are counts, not their order nor how often they come. -/
theorem Gathers.eq {blocks others : List Block} (hr : r.Gathers blocks) (hs : s.Gathers others)
    (h : ∀ b, b ∈ blocks ↔ b ∈ others) : r = s := by
  rw [mk.injEq]
  refine ⟨Std.ExtTreeSet.ext_mem fun i => ?_, Std.ExtTreeSet.ext_mem fun link => ?_,
    Std.ExtTreeSet.ext_mem fun key => ?_, Std.ExtTreeSet.ext_mem fun id => ?_⟩
  · simp only [hr.ackedIndexes, hs.ackedIndexes, h]
  · simp only [hr.ackedLinks, hs.ackedLinks, h]
  · simp only [hr.newAuthors, hs.newAuthors, h]
  · simp only [hr.signers, hs.signers, h]

/-- All but the signers come from the content. -/
theorem ofBlock_eq (b : Block) :
    ofBlock b = { ({} : Requirements).addTerminal b.content with signers := (ofBlock b).signers } := by
  induction b with
  | terminal raw content => rfl
  | wrapped raw around inner ih =>
    obtain ⟨signers, hsigners⟩ : ∃ signers,
        ({} : Requirements).addWrapper around = { signers := signers } := by
      cases around <;> exact ⟨_, rfl⟩
    rw [ofBlock_wrapped, hsigners, union, ih]
    simp only [KeySet.empty_union]
    rfl

theorem mem_ackedIndexes_ofBlock {b : Block} {i : UInt64} :
    i ∈ (ofBlock b).ackedIndexes ↔ ∃ link, b.content = .ack i link := by
  rw [ofBlock_eq]
  cases b.content with
  | policy version payload =>
    rw [addTerminal]
    cases Policy.parse version payload <;> simp
  | data payload => simp [addTerminal]
  | reference hashes => simp [addTerminal]
  | addAuthors keys => simp [addTerminal]
  | ack index link => simp [addTerminal]

theorem mem_newAuthors_ofBlock {b : Block} {key : Bytes} :
    key ∈ (ofBlock b).newAuthors ↔ key ∈ b.content.policyKeys ∨ key ∈ b.content.addedKeys := by
  rw [ofBlock_eq]
  cases b.content with
  | policy version payload =>
    rw [addTerminal, Terminal.policyKeys, Terminal.addedKeys]
    cases Policy.parse version payload <;> simp [Except.toOption]
  | data payload => simp [addTerminal, Terminal.policyKeys, Terminal.addedKeys]
  | reference hashes => simp [addTerminal, Terminal.policyKeys, Terminal.addedKeys]
  | addAuthors keys => simp [addTerminal, Terminal.policyKeys, Terminal.addedKeys]
  | ack index link => simp [addTerminal, Terminal.policyKeys, Terminal.addedKeys]

theorem signers_addTerminal (content : Terminal) :
    (({} : Requirements).addTerminal content).signers = ∅ := by
  cases content with
  | policy version payload =>
    rw [addTerminal]
    cases Policy.parse version payload <;> rfl
  | data payload => rfl
  | reference hashes => rfl
  | addAuthors keys => rfl
  | ack index link => rfl

end Requirements

section Foreseen

variable {a : ActiveLedger} {links : LinkTable} {authors : AuthorTable}

theorem Terminal.blockNotFound_iff {content : Terminal} :
    .blockNotFound ∈ content.problems a links authors ↔
      ∃ index link, content = .ack index link ∧ index ∉ links := by
  cases content with
  | policy version payload => simp [problems]
  | data payload => simp [problems]
  | reference hashes => simp [problems]
  | addAuthors keys =>
    have hkeys : .blockNotFound ∉ problemsOfKeys a.hasher a.signer authors keys := fun h => by
      rcases mem_problemsOfKeys h with h | h <;> cases h
    simp [problems, hkeys]
  | ack index link =>
    have hknown : index ∈ links ↔ links[index]?.isSome = true :=
      Std.ExtTreeMap.mem_iff_isSome_getElem?
    simp only [problems, ack.injEq]
    cases hlink : links[index]? with
    | none => simp [hknown, hlink]
    | some known => simp [hknown, hlink]

theorem Wrapper.authorNotFound_iff {around : Wrapper Bytes} {inner : Bytes} :
    .authorNotFound ∈ around.problems a authors inner ↔
      ∃ id ∈ (({} : Requirements).addWrapper around).signers, id ∉ authors := by
  cases around with
  | authorSignature author signature =>
    have hknown : author ∈ authors ↔ authors[author]?.isSome = true :=
      Std.ExtTreeMap.mem_iff_isSome_getElem?
    simp only [problems, Requirements.addWrapper]
    cases hkey : authors[author]? with
    | none => simp [hknown, hkey]
    | some key => simp [hknown, hkey]
  | previousBlock hash => simp [problems, Requirements.addWrapper]
  | inContext link => simp [problems, Requirements.addWrapper]
  | updateContext => simp [problems, Requirements.addWrapper]

theorem Block.blockNotFound_iff {b : Block} :
    .blockNotFound ∈ b.diagnose a links authors ↔
      ∃ i ∈ (Requirements.ofBlock b).ackedIndexes, i ∉ links := by
  rw [mem_diagnose_of_content (by decide), Terminal.blockNotFound_iff]
  simp only [Requirements.mem_ackedIndexes_ofBlock]
  constructor
  · rintro ⟨index, link, hack, hmissing⟩
    exact ⟨index, ⟨link, hack⟩, hmissing⟩
  · rintro ⟨index, ⟨link, hack⟩, hmissing⟩
    exact ⟨index, link, hack, hmissing⟩

theorem Block.authorNotFound_iff {b : Block} :
    .authorNotFound ∈ b.diagnose a links authors ↔
      ∃ id ∈ (Requirements.ofBlock b).signers, id ∉ authors := by
  rw [mem_diagnose_of_layers (by decide)]
  induction b with
  | terminal raw content =>
    have hnone : .authorNotFound ∉ content.problems a links authors :=
      fun h => absurd (Terminal.mem_possibleProblems h) (by decide)
    have hsigners : (Requirements.ofBlock (.terminal raw content)).signers = ∅ :=
      Requirements.signers_addTerminal content
    simp [problems, hnone, hsigners]
  | wrapped raw around inner ih =>
    rw [problems, List.mem_append, Wrapper.authorNotFound_iff, ih, Requirements.ofBlock_wrapped]
    simp only [Requirements.union, Std.ExtTreeSet.mem_union_iff, or_and_right, exists_or]

end Foreseen

namespace Validator

variable {crypto : CryptoProvider} {config : Config} {v : Validator} {x : Submission}
  {a : ActiveLedger} {b : Block} {report : Report}

theorem foreseen_of_receive (hactive : v.active = some a)
    (hblock : x.block? v.config.maxBlockDepth = some b) (hreport : (v.receive x).1 = .ok report) :
    (.blockNotFound ∈ report.problems ↔
      ∃ i ∈ (Requirements.ofBlock b).ackedIndexes, i ∉ v.links) ∧
    (.authorNotFound ∈ report.problems ↔
      ∃ id ∈ (Requirements.ofBlock b).signers, id ∉ v.authors) ∧
    ∀ id, id ∈ (v.receive x).2.authors ↔
      id ∈ v.authors ∨ ∃ key ∈ (Requirements.ofBlock b).newAuthors, a.hasher.hash key = id := by
  have hkind : b.content.kind ≠ .policy := by
    intro hkind
    rw [receive_of_policy hactive hblock hkind] at hreport
    cases hreport
  have hnew : ∀ key, key ∈ (Requirements.ofBlock b).newAuthors ↔ key ∈ b.content.addedKeys := by
    intro key
    rw [Requirements.mem_newAuthors_ofBlock]
    generalize b.content = content at hkind ⊢
    cases content with
    | policy version payload => exact absurd rfl hkind
    | _ => simp [Terminal.policyKeys]
  rw [receive_of_ne_policy hactive hblock hkind] at hreport ⊢
  obtain rfl := Except.ok.inj hreport
  refine ⟨Block.blockNotFound_iff, Block.authorNotFound_iff, fun id => ?_⟩
  simp only [hnew]
  exact mem_foldl_enrol

/-- The first authors are those that the first block is foreseen to bring. -/
theorem Reachable.authors_of_founding (hv : Reachable crypto config v) (hactive : v.active = none)
    (hblock : x.block? v.config.maxBlockDepth = some b)
    (ha : (v.receive x).2.active = some a) (id : Bytes) :
    id ∈ (v.receive x).2.authors ↔
      ∃ key ∈ (Requirements.ofBlock b).newAuthors, a.hasher.hash key = id := by
  obtain ⟨version, payload, hpolicy, hparse, _, _, _, hauthors⟩ := founded_of_receive hactive ha
  obtain rfl := Option.some.inj (hblock.symm.trans hpolicy)
  rw [hauthors, mem_foldl_enrol, (hv.consistent.blank hactive).2]
  simp [Requirements.mem_newAuthors_ofBlock, Block.content, Terminal.policyKeys,
    Terminal.addedKeys, hparse, Except.toOption]

end Validator

/-- What a block depends on says beforehand which of the complaints about what is
missing it meets, and which ids it leaves known; for a first block these are all ids.
It is found block by block, in any order. -/
theorem requirements_foresee {v : Validator} {x : Submission} {b : Block}
    (hblock : x.block? v.config.maxBlockDepth = some b) :
    let r := ({} : Requirements).add b
    (∀ a report, v.active = some a → (v.receive x).1 = .ok report →
      (.blockNotFound ∈ report.problems ↔ ∃ i ∈ r.ackedIndexes, i ∉ v.links) ∧
      (.authorNotFound ∈ report.problems ↔ ∃ id ∈ r.signers, id ∉ v.authors) ∧
      ∀ id, id ∈ (v.receive x).2.authors ↔
        id ∈ v.authors ∨ ∃ key ∈ r.newAuthors, a.hasher.hash key = id) ∧
    (∀ crypto config a, Validator.Reachable crypto config v → v.active = none →
      (v.receive x).2.active = some a →
      ∀ id, id ∈ (v.receive x).2.authors ↔ ∃ key ∈ r.newAuthors, a.hasher.hash key = id) ∧
    ∀ blocks : List Block,
      (blocks.foldl Requirements.add {}).Gathers blocks ∧
      ∀ others : List Block, (∀ c, c ∈ others ↔ c ∈ blocks) →
        others.foldl Requirements.add {} = blocks.foldl Requirements.add {} := by
  refine ⟨?_, ?_, ?_⟩
  · intro a report hactive hreport
    exact Validator.foreseen_of_receive hactive hblock hreport
  · intro crypto config a hv hactive ha
    exact hv.authors_of_founding hactive hblock ha
  · intro blocks
    refine ⟨Requirements.gathers_foldl blocks, fun others hsame => ?_⟩
    exact (Requirements.gathers_foldl others).eq (Requirements.gathers_foldl blocks) hsame

namespace Sample

def unmet : Block :=
  .wrapped [83, 1, 7, 1, 75, 1, 1, 4, 0] (.authorSignature [7] [0])
    (.terminal [75, 1, 1, 4] (.ack 1 [4]))

theorem parse_unmet : Block.parse 8 unmet.raw = .ok unmet := by cbv

theorem mem_newAuthors_founding {key : Bytes} :
    key ∈ (Requirements.ofBlock founding).newAuthors ↔ key = [1] := by
  have hkeys : founding.content.policyKeys = [[1]] := by
    rw [founding, Block.content, Terminal.policyKeys, parse_policy]
    rfl
  rw [Requirements.mem_newAuthors_ofBlock, hkeys]
  simp [founding, Block.content, Terminal.addedKeys]

end Sample

/-- Neither what is acknowledged nor who signs is there, and no id is new; a first
block brings its one author; and a block counts once. -/
theorem requirements_of_unmet :
    (∃ v report, Validator.Reachable Sample.provider {} v ∧
      (v.receive (.bytes Sample.unmet.raw)).1 = .ok report ∧
      .blockNotFound ∈ report.problems ∧ .authorNotFound ∈ report.problems ∧
      ∀ id, id ∉ (v.receive (.bytes Sample.unmet.raw)).2.authors) ∧
    (∀ id, id ∈ ((Validator.empty Sample.provider {}).receive (.block Sample.founding)).2.authors ↔
      id = [1]) ∧
    [Sample.unmet, Sample.founding, Sample.unmet].foldl Requirements.add {} =
      [Sample.founding, Sample.unmet].foldl Requirements.add {} := by
  refine ⟨?_, ?_, ?_⟩
  · obtain ⟨allowed, hs⟩ := Sample.started_gapped
    have hblock := Submission.block?_bytes.mpr Sample.parse_unmet
    have hreport := congrArg Prod.fst
      (Validator.receive_of_ne_policy (v := Sample.takenUp Sample.gapped Sample.gappedLinks allowed)
        rfl hblock Kind.noConfusion)
    obtain ⟨hblocks, hauthors, hids⟩ := (requirements_foresee hblock).1 _ _ rfl hreport
    have hacked : 1 ∈ (Requirements.ofBlock Sample.unmet).ackedIndexes :=
      Requirements.mem_ackedIndexes_ofBlock.mpr ⟨[4], rfl⟩
    have hunknown : 1 ∉ Sample.gappedLinks := by
      simp [Sample.gappedLinks]
    have hsigner : [7] ∈ (Requirements.ofBlock Sample.unmet).signers := by
      simp [Sample.unmet, Requirements.ofBlock_wrapped, Requirements.union,
        Requirements.addWrapper]
    refine ⟨_, _, hs.reachable, hreport, hblocks.mpr ⟨1, hacked, hunknown⟩,
      hauthors.mpr ⟨[7], hsigner, Std.ExtTreeMap.not_mem_empty⟩, fun id hid => ?_⟩
    rcases (hids id).mp hid with hid | ⟨key, hkey, _⟩
    · exact Std.ExtTreeMap.not_mem_empty hid
    · rcases Requirements.mem_newAuthors_ofBlock.mp hkey with hkey | hkey <;> cases hkey
  · obtain ⟨allowed, hfounding⟩ := Sample.receive_founding
    have hids := (requirements_foresee (v := .empty Sample.provider {})
      (x := .block Sample.founding) rfl).2.1 _ _ _ .empty rfl
        (congrArg (fun answer => answer.2.active) hfounding)
    intro id
    rw [hids]
    constructor
    · rintro ⟨key, hkey, rfl⟩
      rw [Sample.mem_newAuthors_founding.mp hkey]
      rfl
    · rintro rfl
      exact ⟨[1], Sample.mem_newAuthors_founding.mpr rfl, rfl⟩
  · have hgathers := (requirements_foresee (v := .empty Sample.provider {})
      (x := .block Sample.founding) rfl).2.2 [Sample.founding, Sample.unmet]
    refine hgathers.2 _ fun c => ?_
    simpa [or_comm] using Or.inr

end TamperEvident
