import TamperEvident.Proofs.Ledger.AllowedShapes
import TamperEvident.Proofs.Ledger.Audited
import TamperEvident.Proofs.Ledger.Authorship
import TamperEvident.Proofs.Ledger.Reachable

/-! What a block is reported for, by the policy and the tables as they stand before
it. A validator keeps its algorithms and allowed shapes beside the state, but at any
point of a run it reports what the policy in the state says, in this order. -/

namespace TamperEvident

structure Standing where
  state : LedgerState
  hasher : HashAlgorithm
  signer : SignatureAlgorithm
  links : LinkTable
  authors : AuthorTable

def Problem.when (p : Problem) (bad : Prop) [Decidable bad] : List Problem := if bad then [p] else []

namespace Standing

variable (s : Standing)

/-- `earlier` are the keys before this one in the same block. -/
def ofKey (earlier : List Bytes) (key : Bytes) : List Problem :=
  Problem.invalidAuthorKey.when (key.length ≠ s.signer.publicKeyLength) ++
    Problem.authorAlreadyPresent.when
      (s.hasher.hash key ∈ s.authors ∨ s.hasher.hash key ∈ earlier.map s.hasher.hash)

def ofTerminal : Terminal → List Problem
  | .policy _ _ | .data _ => []
  | .reference hashes =>
    hashes.flatMap fun hash =>
      Problem.invalidHashLength.when (hash.length ≠ s.hasher.outputLength)
  | .addAuthors keys => keys.zipIdx.flatMap fun (key, j) => s.ofKey (keys.take j) key
  | .ack index link =>
    match s.links[index]? with
    | none => [.blockNotFound]
    | some known => Problem.blockLinkHashMismatch.when (link ≠ known)

def ofWrapper (inner : Bytes) : Wrapper Bytes → List Problem
  | .authorSignature author signature =>
    match s.authors[author]? with
    | none => [.authorNotFound]
    | some key => Problem.invalidSignature.when (s.signer.verify key inner signature = false)
  | .previousBlock hash => Problem.previousBlockHashMismatch.when (hash ≠ s.state.headBlockHash)
  | .inContext link => Problem.contextLinkHashMismatch.when (link ≠ s.state.contextLinkHash)
  | .updateContext => []

/-- A layer is judged by itself, whatever is found in the layers around it. -/
def ofLayer : Block → List Problem
  | .terminal _ content => s.ofTerminal content
  | .wrapped _ around inner => s.ofWrapper inner.raw around

def problems (b : Block) : List Problem :=
  Problem.blockTooBig.when (s.state.policy.maxBlockSize.toNat < b.raw.length) ++
    Problem.blockTypeNotAllowed.when (b.shape.toBytes ∉ s.state.policy.allowedBlocks) ++
    b.layers.flatMap s.ofLayer

end Standing

def ActiveLedger.standing (a : ActiveLedger) (links : LinkTable) (authors : AuthorTable) : Standing :=
  ⟨a.state, a.hasher, a.signer, links, authors⟩

theorem Problem.when_congr (p : Problem) {bad bad' : Prop} [Decidable bad] [Decidable bad']
    (h : bad ↔ bad') : p.when bad = p.when bad' := by
  simp only [when, h]

section Standing

variable {a : ActiveLedger} {links : LinkTable} {authors : AuthorTable}

/-- The keys before one in its block count as known when it is judged. -/
theorem problemsOfKeys_eq (earlier keys : List Bytes) :
    problemsOfKeys a.hasher a.signer (earlier.foldl (enrol a.hasher) authors) keys =
      (keys.zipIdx earlier.length).flatMap fun (key, j) =>
        (a.standing links authors).ofKey ((earlier ++ keys).take j) key := by
  induction keys generalizing earlier with
  | nil => rfl
  | cons key rest ih =>
    have hkey : keyProblems a.hasher a.signer (earlier.foldl (enrol a.hasher) authors) key =
        (a.standing links authors).ofKey earlier key := by
      rw [keyProblems, Standing.ofKey]
      refine congrArg (_ ++ ·) (Problem.when_congr _ ?_)
      rw [Std.ExtTreeMap.contains_iff_mem, mem_foldl_enrol, ← List.mem_map]
      rfl
    have hrest := ih (earlier ++ [key])
    rw [List.foldl_append, List.append_assoc, List.length_append] at hrest
    rw [problemsOfKeys, hkey, List.zipIdx_cons, List.flatMap_cons]
    dsimp only
    rw [List.take_left]
    exact congrArg (_ ++ ·) hrest

theorem Terminal.problems_eq (content : Terminal) :
    content.problems a links authors = (a.standing links authors).ofTerminal content := by
  cases content with
  | policy version payload => rfl
  | data payload => rfl
  | reference hashes => rfl
  | addAuthors keys => exact problemsOfKeys_eq [] keys
  | ack index link =>
    simp only [problems, Standing.ofTerminal, ActiveLedger.standing]
    cases links[index]? with
    | none => rfl
    | some known => exact Problem.when_congr _ ne_comm

theorem Wrapper.problems_eq (around : Wrapper Bytes) (inner : Bytes) :
    around.problems a authors inner = (a.standing links authors).ofWrapper inner around := by
  cases around with
  | authorSignature author signature =>
    simp only [problems, Standing.ofWrapper, ActiveLedger.standing]
    cases authors[author]? with
    | none => rfl
    | some key => cases hverify : a.signer.verify key inner signature <;> simp [Problem.when, hverify]
  | previousBlock hash => rfl
  | inContext link => rfl
  | updateContext => rfl

theorem Block.problems_eq (b : Block) :
    b.problems a links authors = b.layers.flatMap (a.standing links authors).ofLayer := by
  induction b with
  | terminal raw content =>
    rw [problems, Terminal.problems_eq, layers, List.flatMap_singleton]
    rfl
  | wrapped raw around inner ih =>
    rw [problems, @Wrapper.problems_eq _ links, ih, layers, List.flatMap_cons]
    rfl

/-- What is found is what the policy says, if the shapes kept beside it are its own. -/
theorem Block.diagnose_eq (hallowed : a.state.policy.allowedShapes = .ok a.allowed) (b : Block) :
    b.diagnose a links authors = (a.standing links authors).problems b := by
  have hshape : (if b.shape ∈ a.allowed then [] else [Problem.blockTypeNotAllowed]) =
      Problem.blockTypeNotAllowed.when (b.shape.toBytes ∉ a.state.policy.allowedBlocks) := by
    rw [Problem.when, ite_not]
    simp only [Policy.mem_allowedShapes hallowed]
  rw [diagnose, wholeProblems, hshape, problems_eq]
  rfl

end Standing

/-- A validator that was started empty or taken up, and was given anything since,
answers a block that brings no policy with exactly the problems that the block has
beside the state, the tables before it, and the algorithms that the policy names. -/
theorem problems_of_block {crypto : CryptoProvider} {config : Config} {v : Validator}
    (hv : Validator.Reachable crypto config v) {s : LedgerState} (hs : v.state? = some s)
    {x : Submission} {b : Block} (hblock : x.block? config.maxBlockDepth = some b)
    (hkind : b.innermost.kind ≠ .policy) :
    ∃ hasher signer report,
      crypto.hashNamed s.policy.hashingAlgorithm = .ok hasher ∧
      crypto.signatureNamed s.policy.signingAlgorithm = .ok signer ∧
      (v.receive x).1 = .ok report ∧
      report.problems = (Standing.mk s hasher signer v.links v.authors).problems b := by
  obtain ⟨a, hactive, rfl⟩ := Option.map_eq_some_iff.mp hs
  obtain ⟨_, halgorithms, hallowed⟩ := ActiveLedger.of_eq_ok.mp (hv.consistent.derived a hactive)
  rw [hv.crypto_eq] at halgorithms
  have hcontent : b.content.kind ≠ .policy := by
    obtain ⟨raw, hinnermost⟩ := b.exists_innermost
    rwa [hinnermost] at hkind
  rw [← hv.config_eq] at hblock
  rw [Validator.receive_of_ne_policy hactive hblock hcontent]
  obtain ⟨hhash, hsign⟩ := Policy.algorithms_eq_ok.mp halgorithms
  exact ⟨_, _, _, hhash, hsign, rfl, Block.diagnose_eq hallowed b⟩

namespace Sample

/-- A shape that is not allowed, signed by nobody who is known, in a context that is
none, with a key that is too long, that key again, and a key of the policy. -/
def faulty : Block :=
  .wrapped [83, 1, 7, 1, 67, 2, 0, 0, 65, 2, 2, 2, 2, 2, 2, 1, 1, 0] (.authorSignature [7] [0])
    (.wrapped [67, 2, 0, 0, 65, 2, 2, 2, 2, 2, 2, 1, 1] (.inContext [0, 0])
      (.terminal [65, 2, 2, 2, 2, 2, 2, 1, 1] (.addAuthors [[2, 2], [2, 2], [1]])))

theorem parse_faulty : Block.parse 8 faulty.raw = .ok faulty := by cbv

theorem problems_faulty (links : LinkTable) :
    (Standing.mk genesis checksum stamp links ((∅ : AuthorTable).insert [1] [1])).problems faulty =
      [.blockTypeNotAllowed, .authorNotFound, .contextLinkHashMismatch, .invalidAuthorKey,
        .invalidAuthorKey, .authorAlreadyPresent, .authorAlreadyPresent] := by
  have hshape : faulty.shape.toBytes ∉ genesis.policy.allowedBlocks := by
    have htags : faulty.shape.toBytes = [83, 67, 65] := by cbv
    rw [htags]
    decide
  have hsize : ¬ genesis.policy.maxBlockSize.toNat < faulty.raw.length := by decide
  have hcontext : [0, 0] ≠ genesis.contextLinkHash := by
    simp [genesis, LedgerState.genesis, Chain.nextLink, linkHash, checksum]
  rw [Standing.problems, Problem.when, if_neg hsize, Problem.when, if_pos hshape]
  simp [faulty, Block.layers, Standing.ofLayer, Standing.ofWrapper, Standing.ofTerminal,
    Standing.ofKey, Problem.when, hcontext, checksum, stamp]

end Sample

theorem problems_of_faulty :
    ∃ v, Validator.Reachable Sample.provider {} v ∧ v.state? = some Sample.genesis ∧
      ∃ report, (v.receive (.bytes Sample.faulty.raw)).1 = .ok report ∧
        report.problems = [.blockTypeNotAllowed, .authorNotFound, .contextLinkHashMismatch,
          .invalidAuthorKey, .invalidAuthorKey, .authorAlreadyPresent, .authorAlreadyPresent] := by
  obtain ⟨allowed, hfounding⟩ := Sample.receive_founding
  have hv : Validator.Reachable Sample.provider {} _ := .received .empty (.block Sample.founding)
  rw [hfounding] at hv
  obtain ⟨hasher, signer, report, hhash, hsign, hreport, hproblems⟩ :=
    problems_of_block hv rfl (Submission.block?_bytes.mpr Sample.parse_faulty) Kind.noConfusion
  obtain rfl := Except.ok.inj hhash
  obtain rfl := Except.ok.inj hsign
  exact ⟨_, hv, rfl, report, hreport, hproblems.trans (Sample.problems_faulty _)⟩

end TamperEvident
