import TamperEvident.Proofs.Commitment
import TamperEvident.Proofs.Ledger.Audited
import TamperEvident.Proofs.Ledger.Findings
import TamperEvident.Proofs.Ledger.Production

/-! Blocks made by a producer from the state it tracks have no problems for a
validator that is given them in order. Producer and validator never differ in the
state, and the author and link tables hold what the producer's history says. -/

namespace TamperEvident

/-- Whatever is signed with the secret key verifies under the public key. -/
def SignatureAlgorithm.Matched (s : SignatureAlgorithm) (pair : KeyPair) : Prop :=
  ∀ message signature, s.sign pair.secretKey message = .ok signature →
    s.verify pair.publicKey message signature = true

def Proposal.Ties (tie : Proposal → Proposal) : Prop :=
  tie = Proposal.inContext ∨ tie = Proposal.previousBlock

/-- What a producer puts under a signature, where `keys` are registered and `links`
recorded: new data and new authors become the context and are tied to the ledger,
acknowledgements and references stand for themselves. -/
inductive Producer.Contributes (p : Producer) (h : HashAlgorithm) (s : SignatureAlgorithm)
    (keys links : List Bytes) : Proposal → (added : List Bytes) → Prop
  | tied {content : Terminal} {added : List Bytes} {tie : Proposal → Proposal}
      (hkind : content.kind = .data ∨ content.kind = .addAuthors)
      (hcontent : content.InOrder h s keys links added) (htie : Proposal.Ties tie) :
      Contributes p h s keys links (tie (p.propose content).updateContext) added
  | free {content : Terminal} {added : List Bytes}
      (hkind : content.kind = .ack ∨ content.kind = .reference)
      (hcontent : content.InOrder h s keys links added) :
      Contributes p h s keys links (p.propose content) added
  | ackHead : Contributes p h s keys links p.ack []

/-- The blocks of a ledger so far, the author keys they register, and the producer
that follows them. Each block is signed by one of these authors. -/
inductive Produced (crypto : CryptoProvider) (config : Config) (h : HashAlgorithm)
    (s : SignatureAlgorithm) : (blocks keys : List Bytes) → Producer → Prop
  | genesis {ledgerKey raw : Bytes} {keys : List Bytes} {maxSize : UInt64} {p : Producer}
      (hgenesis : Producer.genesis crypto config ledgerKey keys maxSize = .ok (raw, p))
      (halgorithms : p.state.policy.algorithms crypto = .ok (h, s))
      (hkeys : keys ≠ []) (hadmissible : Admissible h s [] keys) :
      Produced crypto config h s [raw] keys p
  | next {blocks keys added : List Bytes} {raw : Bytes} {p p' : Producer}
      {content signed : Proposal} {author : KeyPair}
      (hproduced : Produced crypto config h s blocks keys p)
      (hcontent : p.Contributes h s keys (Chain.linkHashes h blocks) content added)
      (hauthor : author.publicKey ∈ keys) (hmatched : s.Matched author)
      (hsigned : content.authorSignature author = .ok signed)
      (hbuild : signed.build = .ok (raw, p'))
      (hsize : raw.length ≤ p.state.policy.maxBlockSize.toNat) :
      Produced crypto config h s (blocks ++ [raw]) (keys ++ added) p'

def Submission.Faithful (limit : Nat) (x : Submission) : Prop :=
  x.block? limit = (Block.parse limit x.raw).toOption

def Report.Clean (answer : Except LedgerError Report) : Prop :=
  ∃ report, answer = .ok report ∧ report.problems = []

theorem Submission.Faithful.block?_eq {limit : Nat} {x : Submission} (hx : x.Faithful limit)
    {b : Block} (hb : Block.parse limit x.raw = .ok b) : x.block? limit = some b := by
  rw [hx, hb]
  rfl

theorem ActiveLedger.Records.getElem?_links {a : ActiveLedger} {links : LinkTable}
    {commits : List Commit} (h : a.Records links commits) (hroom : commits.length ≤ 2 ^ 64)
    (hblocks : ∀ c ∈ commits, c.block.isSome = true) (i : UInt64) :
    links[i]? = (Chain.linkHashes a.hasher (commits.map Commit.raw))[i.toNat]? := by
  rw [h.links hroom, Chain.linkHashes, List.getElem?_map]
  cases hi : commits[i.toNat]? with
  | none =>
    have hle := List.getElem?_eq_none_iff.mp hi
    rw [recordedLink_of_le hle, List.getElem?_eq_none]
    · rfl
    · rwa [Chain.length_replay, List.length_map]
  | some commit =>
    obtain ⟨link, hlink, hrecorded⟩ := @recordedLink_of_lt a.hasher _ _ _ hi
    rw [hrecorded, hlink, if_pos (hblocks commit (List.mem_of_getElem? hi))]
    rfl

namespace Producer

variable {p : Producer} {h : HashAlgorithm} {s : SignatureAlgorithm} {keys links added : List Bytes}

theorem exists_wrap_of_ties {tie : Proposal → Proposal} (htie : Proposal.Ties tie)
    (proposal : Proposal) :
    ∃ around, Findings.Ties proposal.producer.state around ∧
      tie proposal = proposal.wrap (around.map .precomputed) := by
  rcases htie with rfl | rfl
  · exact ⟨_, .inl rfl, rfl⟩
  · exact ⟨_, .inr rfl, rfl⟩

theorem exists_written_tied {content : Terminal} {tie : Proposal → Proposal}
    (htie : Proposal.Ties tie) {b : Block}
    (hb : (tie (p.propose content).updateContext).draft.WrittenAs b) :
    ∃ raw raw' raw'' around, Findings.Ties p.state around ∧
      b = .wrapped raw around (.wrapped raw' .updateContext (.terminal raw'' content)) := by
  obtain ⟨around, haround, hwrap⟩ := exists_wrap_of_ties htie (p.propose content).updateContext
  rw [hwrap] at hb
  obtain ⟨raw, middle, hmiddle, rfl⟩ := Draft.WrittenAs.of_precomputed hb
  obtain ⟨raw', inner, hinner, rfl⟩ := @Draft.WrittenAs.of_precomputed .updateContext _ _ hmiddle
  cases hinner with
  | terminal hraw => exact ⟨raw, raw', _, around, haround, rfl⟩

theorem Contributes.tied_or_free {proposal : Proposal}
    (hc : p.Contributes h s keys links proposal added)
    (hhead : links[p.state.headIndex.toNat]? = some p.state.headLinkHash) :
    ∃ content : Terminal, content.InOrder h s keys links added ∧
      (((content.kind = .data ∨ content.kind = .addAuthors) ∧
        ∃ tie, Proposal.Ties tie ∧ proposal = tie (p.propose content).updateContext) ∨
      ((content.kind = .ack ∨ content.kind = .reference) ∧ proposal = p.propose content)) := by
  cases hc with
  | tied hkind hcontent htie => exact ⟨_, hcontent, .inl ⟨hkind, _, htie, rfl⟩⟩
  | free hkind hcontent => exact ⟨_, hcontent, .inr ⟨hkind, rfl⟩⟩
  | ackHead => exact ⟨_, .ack hhead, .inr ⟨.inl rfl, rfl⟩⟩

theorem Contributes.checkLayers {a : ActiveLedger} {table : LinkTable} {f : Findings}
    {proposal : Proposal} {b : Block}
    (hc : p.Contributes a.hasher a.signer keys links proposal added)
    (hb : proposal.draft.WrittenAs b) (hstate : a.state = p.state)
    (hr : Registers a.hasher f.authors keys) (hlinks : ∀ i : UInt64, table[i]? = links[i.toNat]?)
    (hhead : links[p.state.headIndex.toNat]? = some p.state.headLinkHash)
    (hfirst : f.updatesContext = false) :
    .authorSignature :: b.shape ∈ signedShapes ∧
      ∃ authors, Registers a.hasher authors (keys ++ added) ∧
        f.checkLayers a table b =
          .ok { f with authors := authors, updatesContext := b.updatesContext } := by
  obtain ⟨content, hcontent, ⟨hkind, tie, htie, rfl⟩ | ⟨hkind, rfl⟩⟩ := hc.tied_or_free hhead
  · obtain ⟨raw, raw', raw'', around, haround, rfl⟩ := exists_written_tied htie hb
    obtain ⟨authors, hcheck, hregisters⟩ :=
      @Findings.checkLayers_of_inOrder _ { f with updatesContext := true } _ _ _ _ _ raw'' hlinks hr
        hcontent
    refine ⟨?_, authors, hregisters, ?_⟩
    · rcases haround with rfl | rfl <;> rcases hkind with hkind | hkind <;>
        simp [Block.shape, Block.layers, Block.kind, Wrapper.kind, hkind, signedShapes]
    · rw [Findings.checkLayers, Findings.checkWrapper_of_ties (hstate ▸ haround),
        Findings.checkLayers]
      rcases haround with rfl | rfl <;> exact hcheck
  · cases hb with
    | terminal hraw =>
      obtain ⟨authors, hcheck, hregisters⟩ := Findings.checkLayers_of_inOrder _ hlinks hr hcontent
      refine ⟨?_, authors, hregisters, ?_⟩
      · rcases hkind with hkind | hkind <;>
          simp [Block.shape, Block.layers, Block.kind, hkind, signedShapes]
      · rw [hcheck, Block.updatesContext, ← hfirst]

theorem Contributes.checkLayers_signed {a : ActiveLedger} {table : LinkTable}
    {authors : AuthorTable} {proposal : Proposal} {author : KeyPair} {b : Block}
    (hc : p.Contributes a.hasher a.signer keys links proposal added)
    (hauthor : author.publicKey ∈ keys) (hmatched : a.signer.Matched author)
    (hb : (proposal.wrap (.authorSignature (a.hasher.hash author.publicKey)
      (.deferred (a.signer.signer author.secretKey)))).draft.WrittenAs b)
    (hstate : a.state = p.state) (hsize : b.raw.length ≤ a.state.policy.maxBlockSize.toNat)
    (hshapes : ∀ shape ∈ signedShapes, shape ∈ a.allowed)
    (hr : Registers a.hasher authors keys) (hlinks : ∀ i : UInt64, table[i]? = links[i.toNat]?)
    (hhead : links[p.state.headIndex.toNat]? = some p.state.headLinkHash) :
    ∃ authors', Registers a.hasher authors' (keys ++ added) ∧
      (Findings.ofWhole a authors b).checkLayers a table b =
        .ok ⟨#[], authors', b.updatesContext⟩ := by
  cases hb with
  | wrapped hinner hsource hencoded =>
    obtain ⟨signature, hsignature, rfl⟩ := map_eq_ok.mp hsource
    -- what was signed is the encoding of the block inside, the bytes it is verified against
    have hverify := hmatched _ _ (SignatureAlgorithm.sign_of_signatureOver hsignature)
    have hkey := (hr _ _).mpr ⟨hauthor, rfl⟩
    obtain ⟨hshape, authors', hregisters, hcheck⟩ :=
      hc.checkLayers (f := .start authors) hinner hstate hr hlinks hhead rfl
    refine ⟨authors', hregisters, ?_⟩
    rw [Findings.ofWhole_of_allowed hsize (hshapes _ hshape), Findings.checkLayers,
      Findings.checkWrapper_authorSignature hkey hverify, hcheck]
    rfl

theorem Contributes.producer_eq {proposal : Proposal}
    (hc : p.Contributes h s keys links proposal added) : proposal.producer = p := by
  cases hc with
  | tied hkind hcontent htie => rcases htie with rfl | rfl <;> rfl
  | free => rfl
  | ackHead => rfl

end Producer

/-- A validator and a producer have the same state, and the tables of the validator
are those of a history of blocks that registers the keys. -/
structure Validator.Mirrors (v : Validator) (h : HashAlgorithm) (s : SignatureAlgorithm)
    (blocks keys : List Bytes) (p : Producer) : Prop where
  crypto : v.crypto = p.crypto
  config : v.config = p.config
  algorithms : p.state.policy.algorithms p.crypto = .ok (h, s)
  authors : Registers h v.authors keys
  chain : ∃ allowed commits, v.active = some ⟨p.state, h, s, allowed⟩ ∧
    (∀ shape ∈ Producer.signedShapes, shape ∈ allowed) ∧
    (⟨p.state, h, s, allowed⟩ : ActiveLedger).Records v.links commits ∧
    commits.map Commit.raw = blocks ∧ ∀ c ∈ commits, c.block.isSome = true

namespace Validator

variable {v : Validator} {h : HashAlgorithm} {s : SignatureAlgorithm}
  {blocks keys added : List Bytes} {p p' : Producer}

theorem Mirrors.getElem?_links (hm : v.Mirrors h s blocks keys p) (hcount : blocks.length ≤ 2 ^ 64)
    (i : UInt64) : v.links[i]? = (Chain.linkHashes h blocks)[i.toNat]? := by
  obtain ⟨allowed, commits, _, _, hrecords, rfl, hsome⟩ := hm.chain
  rw [List.length_map] at hcount
  exact hrecords.getElem?_links hcount hsome i

theorem Mirrors.getElem?_headIndex (hm : v.Mirrors h s blocks keys p)
    (hcount : blocks.length ≤ 2 ^ 64) :
    (Chain.linkHashes h blocks)[p.state.headIndex.toNat]? =
      some p.state.headLinkHash := by
  obtain ⟨allowed, commits, _, _, hrecords, rfl, _⟩ := hm.chain
  have hhead := hrecords.head
  rw [List.getLast?_eq_getElem?, Chain.length_replay, List.length_map] at hhead
  have hpos : 0 < commits.length := by
    rw [List.length_pos_iff]
    rintro rfl
    cases hhead
  rw [List.length_map] at hcount
  have hindex : p.state.headIndex.toNat = commits.length - 1 :=
    (eq_ofNat_iff (by omega)).mp (hrecords.headIndex_eq hpos)
  rw [hindex, Chain.linkHashes, List.getElem?_map, hhead]
  rfl

/-- A block that a producer builds on the state it shares with a validator is
clean, and they share the state after it. -/
theorem Mirrors.step (hm : v.Mirrors h s blocks keys p) (hcount : blocks.length ≤ 2 ^ 64)
    {content signed : Proposal} {author : KeyPair} {raw : Bytes}
    (hcontent : p.Contributes h s keys (Chain.linkHashes h blocks) content added)
    (hauthor : author.publicKey ∈ keys) (hmatched : s.Matched author)
    (hsigned : content.authorSignature author = .ok signed) (hbuild : signed.build = .ok (raw, p'))
    (hsize : raw.length ≤ p.state.policy.maxBlockSize.toNat) {x : Submission} (hraw : x.raw = raw)
    (hx : x.Faithful p.config.maxBlockDepth) :
    Report.Clean (v.receive x).1 ∧
      (v.receive x).2.Mirrors h s (blocks ++ [raw]) (keys ++ added) p' := by
  obtain rfl := hcontent.producer_eq
  have hhash := hashNamed_of_algorithms hm.algorithms
  obtain rfl := (Proposal.authorSignature_eq_ok hm.algorithms).mp hsigned
  obtain ⟨hencode, b, hparse, rfl⟩ := (Proposal.build_eq_ok (p := content.wrap _) hhash).mp hbuild
  obtain rfl := Block.raw_parse hparse
  have hwritten := Draft.writtenAs_of_parse hencode
    (Nat.lt_of_le_of_lt hsize (UInt64.toNat_lt _)) hparse
  obtain ⟨allowed, commits, hactive, hshapes, hrecords, hblocks, hsome⟩ := hm.chain
  obtain ⟨authors, hregisters, hcheck⟩ :=
    hcontent.checkLayers_signed (a := ⟨content.producer.state, h, s, allowed⟩) hauthor hmatched
      hwritten rfl hsize hshapes hm.authors (hm.getElem?_links hcount) (hm.getElem?_headIndex hcount)
  have hblock : x.block? v.config.maxBlockDepth = some b := by
    rw [← hraw] at hparse
    rw [hm.config]
    exact hx.block?_eq hparse
  rw [receive_of_block? hblock, submitBlock_of_checkLayers hactive hcheck]
  refine ⟨⟨_, rfl, rfl⟩, hm.crypto, hm.config, hm.algorithms, hregisters, allowed, _, rfl, hshapes,
    hrecords.block _ b rfl, ?_, ?_⟩
  · rw [List.map_append, hblocks, List.map_singleton]
  · exact List.forall_mem_append.mpr ⟨hsome, List.forall_mem_singleton.mpr rfl⟩

theorem mirrors_genesis {crypto : CryptoProvider} {config : Config} {ledgerKey raw : Bytes}
    {maxSize : UInt64}
    (hgenesis : Producer.genesis crypto config ledgerKey keys maxSize = .ok (raw, p))
    (halgorithms : p.state.policy.algorithms crypto = .ok (h, s)) (hkeys : keys ≠ [])
    (hadmissible : Admissible h s [] keys) {x : Submission} (hraw : x.raw = raw)
    (hx : x.Faithful config.maxBlockDepth) :
    Report.Clean ((empty crypto config).receive x).1 ∧
      ((empty crypto config).receive x).2.Mirrors h s [raw] keys p := by
  obtain ⟨hlimit, hmax, hencode, hasher, signer, hfound, rfl⟩ := Producer.genesis_eq_ok.mp hgenesis
  obtain ⟨rfl, rfl⟩ := Prod.mk.inj (Except.ok.inj (hfound.symm.trans halgorithms))
  obtain ⟨allowed, hshapes, hsubmit⟩ := Producer.submitBlock_genesisPolicy hmax hfound raw
  obtain ⟨authors, hfold, hregisters⟩ :=
    Findings.foldl_registerAuthor (f := .start ∅) registers_empty hadmissible
  have hparse := Producer.parse_encode_policy hlimit Policy.version
    (Producer.genesisPolicy config ledgerKey keys maxSize).payload
  rw [← hencode, ← hraw] at hparse
  have hblock := hx.block?_eq hparse
  rw [hraw] at hblock
  rw [receive_of_block? hblock, hsubmit, hfold]
  rw [if_neg hkeys] at hshapes
  refine ⟨⟨_, rfl, rfl⟩, rfl, rfl, halgorithms, hregisters, allowed, _, rfl,
    fun shape hshape => (hshapes shape).mpr hshape, records_genesis _ _ _ _ raw (.terminal raw
      (.policy Policy.version (Producer.genesisPolicy config ledgerKey keys maxSize).payload)) rfl,
    rfl, List.forall_mem_singleton.mpr rfl⟩

theorem mirrors_run {crypto : CryptoProvider} {config : Config}
    (hproduced : Produced crypto config h s blocks keys p) (hcount : blocks.length ≤ 2 ^ 64)
    {inputs : List Submission} (hinputs : inputs.map Submission.raw = blocks)
    (hread : ∀ x ∈ inputs, x.Faithful config.maxBlockDepth) :
    (∀ answer ∈ (empty crypto config).answersFrom inputs, Report.Clean answer) ∧
      ((empty crypto config).runFrom inputs).Mirrors h s blocks keys p := by
  induction hproduced generalizing inputs with
  | genesis hgenesis halgorithms hkeys hadmissible =>
    obtain ⟨x, rfl, hraw⟩ := List.map_eq_singleton_iff.mp hinputs
    obtain ⟨hclean, hm⟩ := mirrors_genesis hgenesis halgorithms hkeys hadmissible hraw
      (hread x List.mem_cons_self)
    exact ⟨List.forall_mem_singleton.mpr hclean, hm⟩
  | next hproduced hcontent hauthor hmatched hsigned hbuild hsize ih =>
    obtain ⟨before, last, rfl, hbefore, hlast⟩ := List.map_eq_append_iff.mp hinputs
    obtain ⟨x, rfl, hraw⟩ := List.map_eq_singleton_iff.mp hlast
    rw [List.length_append, List.length_singleton] at hcount
    have hlength := Nat.le_of_succ_le hcount
    obtain ⟨hclean, hm⟩ := ih hlength hbefore fun y hy => hread y (List.mem_append_left _ hy)
    have hx := hread x (List.mem_append_right _ List.mem_cons_self)
    rw [show config = _ from (config_runFrom (empty crypto config) before).symm, hm.config] at hx
    obtain ⟨hcleanLast, hmLast⟩ :=
      hm.step hlength hcontent hauthor hmatched hsigned hbuild hsize hraw hx
    rw [answersFrom_concat, runFrom_concat]
    exact ⟨List.forall_mem_append.mpr ⟨hclean, List.forall_mem_singleton.mpr hcleanLast⟩, hmLast⟩

end Validator

/-- A validator that is given the blocks of a producer in order reports no problem
with any of them. It ends with the state of the producer, with just the authors
the blocks register, and with the links of all of them. The bound on their number
is the one of the numbers of blocks in acknowledgements. -/
theorem clean_of_produced {crypto : CryptoProvider} {config : Config} {h : HashAlgorithm}
    {s : SignatureAlgorithm} {blocks keys : List Bytes} {p : Producer} {inputs : List Submission}
    (hproduced : Produced crypto config h s blocks keys p) (hcount : blocks.length ≤ 2 ^ 64)
    (hinputs : inputs.map Submission.raw = blocks)
    (hread : ∀ x ∈ inputs, x.Faithful config.maxBlockDepth) :
    let v := (Validator.empty crypto config).runFrom inputs
    (∀ answer ∈ (Validator.empty crypto config).answersFrom inputs,
      ∃ report, answer = .ok report ∧ report.problems = []) ∧
    v.state? = some p.state ∧
    (∀ id key, v.authors[id]? = some key ↔ key ∈ keys ∧ h.hash key = id) ∧
    (∀ i : UInt64, v.links[i]? = (Chain.linkHashes h blocks)[i.toNat]?) := by
  intro v
  obtain ⟨hclean, hm⟩ := Validator.mirrors_run hproduced hcount hinputs hread
  obtain ⟨allowed, _, hactive, _⟩ := hm.chain
  refine ⟨hclean, ?_, hm.authors, hm.getElem?_links hcount⟩
  rw [Validator.state?, hactive]
  rfl

namespace Sample

theorem matched_stamp (key : Bytes) : stamp.Matched ⟨key, key⟩ := by
  intro message signature hsign
  obtain rfl := Except.ok.inj hsign
  exact beq_self_eq_true _

def Small (p : Producer) : Prop :=
  p.crypto = provider ∧ p.config = {} ∧ p.state.policy.maxBlockSize = 100

theorem exists_next {blocks keys added : List Bytes} {p : Producer} {content : Proposal}
    {key raw : Bytes} (hproduced : Produced provider {} checksum stamp blocks keys p) (hp : Small p)
    (hcontent : p.Contributes checksum stamp keys (Chain.linkHashes checksum blocks) content added)
    (hkey : key ∈ keys)
    (hencode : (Draft.wrapped (.authorSignature (checksum.hash key) (.deferred (stamp.signer key)))
      content.draft).encode = .ok raw)
    (hsize : raw.length ≤ 100) (hdepth : content.draft.depth ≤ 7) :
    ∃ p', Produced provider {} checksum stamp (blocks ++ [raw]) (keys ++ added) p' ∧ Small p' := by
  obtain rfl := hcontent.producer_eq
  obtain ⟨hcrypto, hconfig, hmax⟩ := hp
  have halgorithms : content.producer.state.policy.algorithms content.producer.crypto =
      .ok (checksum, stamp) := by
    rw [hcrypto]
    rfl
  have hsigned := (@Proposal.authorSignature_eq_ok content _ ⟨key, key⟩ _ _ halgorithms).mpr rfl
  have hroom : (Draft.wrapped (.authorSignature (checksum.hash key) (.deferred (stamp.signer key)))
      content.draft).depth ≤ content.producer.config.maxBlockDepth := by
    rw [hconfig, Draft.depth]
    exact Nat.succ_le_succ hdepth
  obtain ⟨update, hbuild⟩ := Proposal.exists_build (p := content.wrap _)
    (hashNamed_of_algorithms halgorithms) hencode (by omega) hroom
  have hfits : raw.length ≤ content.producer.state.policy.maxBlockSize.toNat := by
    rw [hmax]
    exact hsize
  exact ⟨_, hproduced.next hcontent hkey (matched_stamp key) hsigned hbuild hfits, hcrypto, hconfig,
    hmax⟩

theorem encode_newcomer (c : UInt8) :
    (Draft.wrapped (.authorSignature [1] (.deferred (stamp.signer [1]))) (.wrapped (.inContext [c])
      (.wrapped .updateContext (.terminal (.addAuthors [[2]]))))).encode =
    .ok ([83, 1, 1, 2, 67, 1, c, 85, 65, 1, 2, 1] ++ checksum.hash [67, 1, c, 85, 65, 1, 2]) := by
  have hcontent : (Draft.wrapped .updateContext (.terminal (.addAuthors [[2]]))).encode =
      .ok [85, 65, 1, 2] := by cbv
  have htied : (Draft.wrapped (.inContext [c])
      (.wrapped .updateContext (.terminal (.addAuthors [[2]])))).encode =
      .ok [67, 1, c, 85, 65, 1, 2] := by
    refine Draft.encode_wrapped_eq_ok.mpr ⟨_, _, hcontent, rfl, ?_⟩
    simp [Wrapper.header_eq, Wrapper.fields, Wrapper.kind, Wrapper.ending, Kind.tag, sizedField,
      Varint.encode_of_lt]
  refine Draft.encode_wrapped_eq_ok.mpr ⟨_, _, htied, rfl, ?_⟩
  simp [Wrapper.header_eq, Wrapper.fields, Wrapper.kind, Wrapper.ending, Kind.tag, sizedField,
    Varint.encode_of_lt, checksum]

theorem encode_reference :
    (Draft.wrapped (.authorSignature [2] (.deferred (stamp.signer [2])))
      (.terminal (.reference [[5]]))).encode =
    .ok ([83, 1, 2, 2, 82, 1, 5, 2] ++ checksum.hash [82, 1, 5]) := by
  cbv

/-- The first author brings in a second one, who signs the block after that. -/
theorem exists_produced :
    ∃ blocks p, Produced provider {} checksum stamp blocks [[1], [2]] p ∧ blocks.length = 3 := by
  obtain ⟨raw, p, hgenesis, hp, c, hcontext⟩ : ∃ raw p,
      Producer.genesis provider {} [9] [[1]] 100 = .ok (raw, p) ∧ Small p ∧
      ∃ c, p.state.contextLinkHash = [c] :=
    ⟨_, _, Producer.genesis_eq_ok.mpr ⟨by decide, by decide, rfl, checksum, stamp, rfl, rfl⟩,
      ⟨rfl, rfl, rfl⟩, _, rfl⟩
  have hfirst : Produced provider {} checksum stamp [raw] [[1]] p :=
    .genesis hgenesis rfl (by decide) ⟨by decide, by decide⟩
  have hencode := encode_newcomer c
  rw [← hcontext] at hencode
  obtain ⟨p', hsecond, hp'⟩ := exists_next hfirst hp
    (.tied (.inr rfl) (.addAuthors ⟨by decide, by decide⟩) (.inl rfl)) List.mem_cons_self hencode
    (show 13 ≤ 100 by decide) (show 3 ≤ 7 by decide)
  obtain ⟨p'', hthird, _⟩ := exists_next hsecond hp' (.free (.inr rfl) (.reference (by decide)))
    (List.mem_cons_of_mem _ List.mem_cons_self) encode_reference (by decide)
    (show 1 ≤ 7 by decide)
  exact ⟨_, p'', hthird, rfl⟩

end Sample

theorem clean_of_newcomer :
    ∃ blocks p, Produced Sample.provider {} Sample.checksum Sample.stamp blocks [[1], [2]] p ∧
      blocks.length = 3 ∧
      ∀ answer ∈ (Validator.empty Sample.provider {}).answersFrom (blocks.map .bytes),
        ∃ report, answer = .ok report ∧ report.problems = [] := by
  obtain ⟨blocks, p, hproduced, hlength⟩ := Sample.exists_produced
  have hraw : (blocks.map Submission.bytes).map Submission.raw = blocks := by
    rw [List.map_map]
    exact List.map_id _
  have hread : ∀ x ∈ blocks.map Submission.bytes, x.Faithful ({} : Config).maxBlockDepth := by
    intro x hx
    obtain ⟨raw, _, rfl⟩ := List.mem_map.mp hx
    rfl
  have hclean := clean_of_produced hproduced (by rw [hlength]; decide) hraw hread
  exact ⟨blocks, p, hproduced, hlength, hclean.1⟩

end TamperEvident
