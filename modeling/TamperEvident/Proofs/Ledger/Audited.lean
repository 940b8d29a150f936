import TamperEvident.Ledger.Audit
import TamperEvident.Proofs.Ledger.Diagnosis
import TamperEvident.Proofs.Ledger.LinkedChain
import TamperEvident.Proofs.Ledger.PolicyText
import TamperEvident.Proofs.Merkle.Completeness

/-! An audited ledger goes the way its validator goes, and its tree is the tree
over the links of the chain that the validator stands for. Neither gets ahead of
the other, so nothing it is given ends in an error that the validator alone
would not have. -/

namespace TamperEvident

theorem Findings.checkLayers_error {a : ActiveLedger} {links : LinkTable} {b : Block}
    {f : Findings} {e : LedgerError} (h : f.checkLayers a links b = .error e) :
    e = .amendmentUnsupported a.state.blockCount := by
  by_cases hkind : b.content.kind = .policy
  · rw [checkLayers_of_policy hkind] at h
    exact (Except.error.inj h).symm
  · rw [checkLayers_of_ne_policy hkind] at h
    cases h

def stateOf : Except LedgerError Report → Option LedgerState
  | .ok report => report.state
  | .error _ => none

def LedgerState.headLink (s : LedgerState) : ChainLink := ⟨s.headBlockHash, s.headLinkHash⟩

namespace Validator

/-- The links of the chain over `commits`; there are none before a first block. -/
def chain (v : Validator) (commits : List Commit) : List ChainLink :=
  match v.active with
  | none => []
  | some a => Chain.replay a.hasher (commits.map Commit.raw)

theorem chain_eq_nil {v : Validator} (hactive : v.active = none) (commits : List Commit) :
    v.chain commits = [] := by
  rw [chain, hactive]

theorem chain_eq_replay {v : Validator} {a : ActiveLedger} (hactive : v.active = some a)
    (commits : List Commit) : v.chain commits = Chain.replay a.hasher (commits.map Commit.raw) := by
  rw [chain, hactive]

theorem Linked.length_chain {v : Validator} {commits : List Commit} (h : v.Linked commits) :
    (v.chain commits).length = commits.length := by
  cases hactive : v.active with
  | none => rw [chain_eq_nil hactive, (h.inactive hactive).1]; rfl
  | some a => rw [chain_eq_replay hactive, Chain.length_replay, List.length_map]

variable {v v' : Validator} {x : Submission}

theorem Transition.error_eq {e : LedgerError} (h : Transition v x (.error e) v') :
    e = .amendmentUnsupported v.blockCount := by
  cases h with
  | amended hactive hblock hcheck =>
    rw [Findings.checkLayers_error hcheck, blockCount, state?, hactive]
    rfl

theorem Transition.blockCount_eq {answer : Except LedgerError Report} {s : LedgerState}
    (h : Transition v x answer v') (hs : stateOf answer = some s) :
    s.headIndex = v.blockCount ∧ v'.blockCount = v.blockCount + 1 := by
  cases h with
  | unread => cases hs
  | refused => cases hs
  | amended => cases hs
  | founded hactive hblock hpolicy halgorithms hallowed hauthors hstate =>
    obtain rfl := Option.some.inj hs
    subst hstate
    rw [blockCount, state?, hactive]
    exact ⟨LedgerState.headIndex_genesis _ _ _, rfl⟩
  | malformed hactive hblock hnext =>
    obtain rfl := Option.some.inj hs
    subst hnext
    rw [blockCount, state?, hactive]
    exact ⟨LedgerState.headIndex_advance _ _ _ _, rfl⟩
  | extended hactive hblock hcheck hnext =>
    obtain rfl := Option.some.inj hs
    subst hnext
    rw [blockCount, state?, hactive]
    exact ⟨LedgerState.headIndex_advance _ _ _ _, rfl⟩

/-- A chain grows by the link of the state that is reported, and by nothing else. -/
theorem chain_transition {commits : List Commit} {answer : Except LedgerError Report}
    (ht : Transition v x answer v') (h : v.Linked commits) :
    v'.chain (commits ++ (x.commit? v.config.maxBlockDepth answer).toList) =
      v.chain commits ++ ((stateOf answer).map LedgerState.headLink).toList := by
  cases ht with
  | unread hactive hblock => simp [chain_eq_nil hactive, stateOf]
  | refused hactive hblock _ => simp [chain_eq_nil hactive, stateOf]
  | amended hactive hblock _ => simp [stateOf]
  | founded hactive hblock hpolicy halgorithms hallowed hauthors hstate =>
    obtain ⟨rfl, _⟩ := h.inactive hactive
    subst hstate
    rw [chain_eq_nil hactive, chain_eq_replay rfl]
    rfl
  | malformed hactive hblock hnext =>
    have hhead := (h.active hactive).2.headLink
    subst hnext
    rw [chain_eq_replay hactive, chain_eq_replay rfl]
    simp only [Submission.commit?_some, Option.toList_some]
    rw [replay_commits_concat, hhead]
    rfl
  | extended hactive hblock _ hnext =>
    have hhead := (h.active hactive).2.headLink
    subst hnext
    rw [chain_eq_replay hactive, chain_eq_replay rfl]
    simp only [Submission.commit?_some, Option.toList_some]
    rw [replay_commits_concat, hhead]
    rfl

end Validator

namespace AuditedLedger

def receive (l : AuditedLedger) : Submission → Except LedgerError AuditedReport × AuditedLedger
  | .bytes raw => l.submit raw
  | .block b => l.submitBlock b

theorem receive_eq (l : AuditedLedger) (x : Submission) :
    l.receive x = l.submitWith fun v => v.receive x := by
  cases x <;> rfl

/-- The audited ledgers that submissions lead to from an empty one. At any point
the ledger may be put together again from its validator and its tree. -/
inductive Reached (crypto : CryptoProvider) (config : Config) :
    List Submission → AuditedLedger → Prop
  | new : Reached crypto config [] (.empty crypto config)
  | submitted {inputs : List Submission} {l : AuditedLedger} (h : Reached crypto config inputs l)
      (x : Submission) : Reached crypto config (inputs ++ [x]) (l.receive x).2
  | resumed {inputs : List Submission} {l l' : AuditedLedger} (h : Reached crypto config inputs l)
      (hl : withHistory l.validator l.tree = .ok l') : Reached crypto config inputs l'

/-- The tree holds a leaf for each link of the chain, in order. -/
def Follows (l : AuditedLedger) (commits : List Commit) : Prop :=
  l.validator.Linked commits ∧
    l.tree = treeOf Digest.combine
      ((l.validator.chain commits).map fun link => Digest.leaf link.linkHash)

namespace Follows

variable {l : AuditedLedger} {commits : List Commit}

theorem count_eq (h : l.Follows commits) : l.tree.count = commits.length := by
  rw [h.2, count_treeOf, List.length_map, h.1.length_chain]

theorem leafCount_eq (h : l.Follows commits) : l.leafCount = l.validator.blockCount := by
  rw [leafCount, h.count_eq, h.1.blockCount_eq]

theorem checkSync (h : l.Follows commits) : l.checkSync = .ok () := by
  rw [AuditedLedger.checkSync, if_pos h.leafCount_eq]

theorem withHistory (h : l.Follows commits) : withHistory l.validator l.tree = .ok l := by
  rw [AuditedLedger.withHistory]
  simp only [h.checkSync, Except.map]

theorem submitWith {x : Submission} {answer : Except LedgerError Report} {v' : Validator}
    (h : l.Follows commits) (hx : l.validator.receive x = (answer, v')) :
    ∃ answer' tree, l.receive x = (answer', ⟨v', tree⟩) ∧
      answer'.map AuditedReport.report = answer ∧
      tree = treeOf Digest.combine ((l.validator.chain commits ++
        ((stateOf answer).map LedgerState.headLink).toList).map fun link =>
          Digest.leaf link.linkHash) := by
  have ht := l.validator.transition_receive x
  rw [hx] at ht
  rw [receive_eq, AuditedLedger.submitWith, h.checkSync]
  simp only [hx]
  cases answer with
  | error e =>
    refine ⟨.error e, l.tree, rfl, rfl, ?_⟩
    rw [h.2]
    simp [stateOf]
  | ok report =>
    simp only [append]
    cases hs : report.state with
    | none =>
      refine ⟨_, l.tree, rfl, rfl, ?_⟩
      rw [h.2]
      simp [stateOf, hs]
    | some s =>
      have hindex : s.headIndex = l.leafCount := (ht.blockCount_eq hs).1.trans h.leafCount_eq.symm
      obtain ⟨nodes, hpush⟩ := push_treeOf Digest.combine
        ((l.validator.chain commits).map fun link => Digest.leaf link.linkHash)
        (Digest.leaf s.headLinkHash)
      rw [← h.2] at hpush
      simp only [hindex, leafCount, if_true, hpush]
      refine ⟨_, _, rfl, rfl, ?_⟩
      simp [stateOf, hs, LedgerState.headLink]

end Follows

variable {crypto : CryptoProvider} {config : Config} {inputs : List Submission} {l : AuditedLedger}

/-- However it was reached, an audited ledger holds the validator that was given
the same submissions, and the tree over its chain. -/
theorem Reached.follows (h : Reached crypto config inputs l) :
    l.validator = (Validator.empty crypto config).runFrom inputs ∧
      l.Follows ((Validator.empty crypto config).commitsFrom inputs) := by
  induction h with
  | new =>
    refine ⟨rfl, ⟨rfl, rfl⟩, ?_⟩
    exact treeOf_nil.symm
  | @submitted inputs l _ x ih =>
    obtain ⟨hv, hfollows⟩ := ih
    have ht := l.validator.transition_receive x
    obtain ⟨answer, v', hx⟩ : ∃ answer v', l.validator.receive x = (answer, v') := ⟨_, _, rfl⟩
    rw [hx] at ht
    obtain ⟨answer', tree, hreceive, _, htree⟩ := hfollows.submitWith hx
    rw [Validator.runFrom_concat, Validator.commitsFrom_concat, ← hv, hx, hreceive]
    refine ⟨rfl, Validator.linked_transition ht hfollows.1, ?_⟩
    rw [htree, Validator.chain_transition ht hfollows.1]
  | resumed h hl ih =>
    rw [ih.2.withHistory] at hl
    obtain rfl := Except.ok.inj hl
    exact ih

end AuditedLedger

/-- Whatever an audited ledger was given, and wherever it was put together again
on the way, it answers as a validator on its own does, its tree has the leaf of
each link of the chain and nothing else, and the root is the root at the number
of blocks. The bound on that number is the one of the leaf numbers. -/
theorem audited_after_run {crypto : CryptoProvider} {config : Config} {inputs : List Submission}
    {l : AuditedLedger} (h : AuditedLedger.Reached crypto config inputs l) :
    let v := (Validator.empty crypto config).runFrom inputs
    let links := v.chain ((Validator.empty crypto config).commitsFrom inputs)
    l.validator = v ∧
    AuditedLedger.withHistory l.validator l.tree = .ok l ∧
    (∀ x, (l.receive x).1.map AuditedReport.report = (v.receive x).1 ∧
      (∀ e, (l.receive x).1 = .error e → e = .amendmentUnsupported v.blockCount) ∧
      (stateOf (v.receive x).1 = none → (l.receive x).2.tree = l.tree)) ∧
    l.tree.count = links.length ∧ v.blockCount = UInt64.ofNat links.length ∧
    (∀ (i : Nat) (link : ChainLink), links[i]? = some link →
      l.leaf i = .ok (Digest.leaf link.linkHash)) ∧
    (links.length < 2 ^ 63 → l.tree.count = v.blockCount.toNat ∧
      (0 < v.blockCount → ∃ root, l.root = some root ∧ l.rootAt v.blockCount.toNat = .ok root)) := by
  intro v links
  obtain ⟨hv, hfollows⟩ := h.follows
  have hlinked := hfollows.1
  have hcount := hfollows.count_eq
  have htree := hfollows.2
  rw [hv] at hlinked htree
  rw [← hlinked.length_chain] at hcount
  have hnumber : v.blockCount = UInt64.ofNat links.length := by
    rw [hlinked.blockCount_eq, ← hlinked.length_chain]
  refine ⟨hv, hfollows.withHistory, ?_, hcount, hnumber, ?_, ?_⟩
  · intro x
    obtain ⟨answer', tree, hreceive, hanswer, hgrown⟩ :=
      hfollows.submitWith (x := x) (Prod.mk.eta (p := l.validator.receive x)).symm
    rw [hv] at hanswer hgrown
    rw [hreceive]
    refine ⟨hanswer, ?_, ?_⟩
    · intro e he
      rw [show answer' = .error e from he] at hanswer
      have ht := v.transition_receive x
      rw [← hanswer] at ht
      exact ht.error_eq
    · intro hnone
      change tree = l.tree
      rw [hgrown, hnone, htree, Option.map_none, Option.toList_none, List.append_nil]
  · intro i link hi
    have hleaf : (links.map fun link => Digest.leaf link.linkHash)[i]? =
        some (Digest.leaf link.linkHash) := by rw [List.getElem?_map, hi, Option.map_some]
    rw [AuditedLedger.leaf, htree, stored_leaf hleaf]
    rfl
  · intro hsize
    have hword : v.blockCount.toNat = links.length := (eq_ofNat_iff (by omega)).mp hnumber
    refine ⟨hcount.trans hword.symm, fun hpos => ?_⟩
    have hlen : (links.map fun link => Digest.leaf link.linkHash).length = v.blockCount.toNat := by
      rw [List.length_map, hword]
    rw [← hword] at hsize
    obtain ⟨root, hroot, hrootAt⟩ := rootAt_treeOf Digest.combine (lt_topLeaf hsize)
      (UInt64.lt_iff_toNat_lt.mp hpos) hlen.ge
    rw [← hlen, List.take_length] at hroot
    refine ⟨root, ?_, ?_⟩
    · rw [AuditedLedger.root, htree, root_treeOf, hroot]
    · rw [AuditedLedger.rootAt, htree, hrootAt]
      rfl

/-! A small ledger on which statements about runs can be tried: digests are
sums of bytes, and a signature is the key and the digest of what is signed. -/

namespace Sample

def checksum : HashAlgorithm := ⟨"sum", 1, fun m => [m.foldl (· + ·) 0]⟩

def stamp : SignatureAlgorithm where
  name := "stamp"
  publicKeyLength := 1
  secretKeyLength := 1
  signatureLength := 2
  keyPairFrom entropy := ⟨entropy.take 1, entropy.take 1⟩
  sign secretKey message := .ok (secretKey ++ checksum.hash message)
  verify publicKey message signature := signature == publicKey ++ checksum.hash message

def provider : CryptoProvider := ⟨fun _ => .ok checksum, fun _ => .ok stamp⟩

def policy : Policy where
  ledgerPublicKey := [9]
  maxBlockSize := 100
  hashingAlgorithm := "sum"
  signingAlgorithm := "stamp"
  allowedBlocks := [[68]]
  authorKeys := [[1]]
  applicationData := .member "version" (.string "1.0.0") trivial

def raw : Bytes := (Terminal.policy 1 policy.payload).encode

def founding : Block := .terminal raw (.policy 1 policy.payload)

def genesis : LedgerState := .genesis checksum policy raw

theorem parse_policy : Policy.parse 1 policy.payload = .ok policy := by
  have hvalid : policy.validate = .ok () := by decide +kernel
  have hparse := @Policy.parse_payload policy ⟨trivial, trivial⟩ (by decide)
  rw [hvalid] at hparse
  exact hparse

theorem receive_founding :
    ∃ allowed, (Validator.empty provider {}).receive (.block founding) =
      (.ok ⟨some genesis, none, []⟩,
        ⟨provider, {}, some ⟨genesis, checksum, stamp, allowed⟩,
          (∅ : LinkTable).insert genesis.headIndex genesis.headLinkHash,
          (∅ : AuthorTable).insert (checksum.hash [1]) [1]⟩) := by
  obtain ⟨allowed, hallowed⟩ := Policy.exists_allowedShapes (Policy.parse_eq_ok parse_policy).1
  have halgorithms : policy.algorithms provider = .ok (checksum, stamp) := rfl
  have hauthors : policy.authorKeys.foldl (Findings.registerAuthor checksum stamp) (.start ∅) =
      ⟨#[], (∅ : AuthorTable).insert (checksum.hash [1]) [1], false⟩ := by
    simp [policy, Findings.registerAuthor, Findings.start, Findings.reportIf, stamp]
  have hempty : (Validator.empty provider {}).active = none := rfl
  refine ⟨allowed, ?_⟩
  rw [Validator.receive, founding,
    Validator.submitBlock_founding hempty parse_policy halgorithms hallowed]
  simp only [Validator.empty, hauthors, genesis]

variable (a : ActiveLedger) (links : LinkTable) (authors : AuthorTable)

theorem receive_junk :
    (⟨provider, {}, some a, links, authors⟩ : Validator).receive (.bytes [0]) =
      (.ok ⟨some (a.state.advance a.hasher [0] false), none, [.malformedBlock]⟩,
        ⟨provider, {}, some { a with state := a.state.advance a.hasher [0] false }, links,
          authors⟩) := rfl

theorem receive_founding_again :
    (⟨provider, {}, some a, links, authors⟩ : Validator).receive (.block founding) =
      (.error (.amendmentUnsupported a.state.blockCount),
        ⟨provider, {}, some a, links, authors⟩) := rfl

def submissions : List Submission := [.block founding, .bytes [0], .block founding]

end Sample

theorem audited_after_malformed :
    ∃ l, AuditedLedger.Reached Sample.provider {} Sample.submissions l ∧
      l.tree.count = 2 ∧ (∃ leaf, l.leaf 1 = .ok leaf) ∧
      ∃ root, l.root = some root ∧ l.rootAt 2 = .ok root := by
  have hnew : AuditedLedger.Reached Sample.provider {} [] _ := .new
  have hfirst := hnew.submitted (.block Sample.founding)
  have hsecond := (hfirst.resumed (audited_after_run hfirst).2.1).submitted (.bytes [0])
  have h : AuditedLedger.Reached Sample.provider {} Sample.submissions _ :=
    hsecond.submitted (.block Sample.founding)
  have hcount :
      ((Validator.empty Sample.provider {}).runFrom Sample.submissions).blockCount = 2 := by
    obtain ⟨allowed, hfounding⟩ := Sample.receive_founding
    rw [Sample.submissions, Validator.runFrom_cons, hfounding, Validator.runFrom_cons,
      Sample.receive_junk, Validator.runFrom_cons, Sample.receive_founding_again]
    rfl
  have hlinked := Validator.linked_run Sample.provider {} Sample.submissions
  have hshort : (Validator.chain _ _).length ≤ 3 :=
    hlinked.length_chain.trans_le (Validator.length_commitsFrom_le _ Sample.submissions)
  obtain ⟨_, _, _, htree, hnumber, hleaf, hroot⟩ := audited_after_run h
  rw [hcount] at hnumber hroot
  have hlength := (eq_ofNat_iff (by omega)).mp hnumber
  obtain ⟨hcount, hroot⟩ := hroot (by omega)
  refine ⟨_, h, hcount, ?_, hroot (by decide)⟩
  exact ⟨_, hleaf 1 _ (List.getElem?_eq_getElem (by rw [← hlength]; decide))⟩

end TamperEvident
