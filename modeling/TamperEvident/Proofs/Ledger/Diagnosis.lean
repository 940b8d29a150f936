import TamperEvident.Proofs.Block.Content
import TamperEvident.Proofs.Ledger.Run

/-! The problems of a block read off its layers, without any run of the checks:
what is wrong with the whole, with each wrapper from the outside in, and with the
content. The checks of a block find these problems, in this order, and no others. -/

namespace TamperEvident

/-- The author table after one more key. An id that is known keeps its key. -/
def enrol (h : HashAlgorithm) (authors : AuthorTable) (key : Bytes) : AuthorTable :=
  authors.insertIfNew (h.hash key) key

def keyProblems (h : HashAlgorithm) (s : SignatureAlgorithm) (authors : AuthorTable) (key : Bytes) :
    List Problem :=
  (if key.length ≠ s.publicKeyLength then [.invalidAuthorKey] else []) ++
    if authors.contains (h.hash key) then [.authorAlreadyPresent] else []

/-- Each key is judged beside those before it. -/
def problemsOfKeys (h : HashAlgorithm) (s : SignatureAlgorithm) :
    AuthorTable → List Bytes → List Problem
  | _, [] => []
  | authors, key :: rest =>
    keyProblems h s authors key ++ problemsOfKeys h s (enrol h authors key) rest

namespace Terminal

def addedKeys : Terminal → List Bytes
  | policy _ _ | data _ | reference _ | ack _ _ => []
  | addAuthors keys => keys

def problems (a : ActiveLedger) (links : LinkTable) (authors : AuthorTable) :
    Terminal → List Problem
  | policy _ _ | data _ => []
  | reference hashes =>
    hashes.flatMap fun hash =>
      if hash.length ≠ a.hasher.outputLength then [.invalidHashLength] else []
  | addAuthors keys => problemsOfKeys a.hasher a.signer authors keys
  | ack index link =>
    match links[index]? with
    | none => [.blockNotFound]
    | some known => if known ≠ link then [.blockLinkHashMismatch] else []

def possibleProblems : List Problem :=
  [.invalidHashLength, .blockNotFound, .blockLinkHashMismatch, .invalidAuthorKey,
    .authorAlreadyPresent]

end Terminal

namespace Wrapper

def problems (a : ActiveLedger) (authors : AuthorTable) (inner : Bytes) :
    Wrapper Bytes → List Problem
  | authorSignature author signature =>
    match authors[author]? with
    | none => [.authorNotFound]
    | some key => if a.signer.verify key inner signature then [] else [.invalidSignature]
  | previousBlock hash =>
    if hash ≠ a.state.headBlockHash then [.previousBlockHashMismatch] else []
  | inContext link =>
    if link ≠ a.state.contextLinkHash then [.contextLinkHashMismatch] else []
  | updateContext => []

def possibleProblems : List Problem :=
  [.authorNotFound, .invalidSignature, .previousBlockHashMismatch, .contextLinkHashMismatch]

end Wrapper

namespace Block

/-- All layers are judged beside the authors known before the block. -/
def problems (a : ActiveLedger) (links : LinkTable) (authors : AuthorTable) : Block → List Problem
  | terminal _ content => content.problems a links authors
  | wrapped _ around inner => around.problems a authors inner.raw ++ inner.problems a links authors

def wholeProblems (a : ActiveLedger) (b : Block) : List Problem :=
  (if a.state.policy.maxBlockSize.toNat < b.raw.length then [.blockTooBig] else []) ++
    if b.shape ∈ a.allowed then [] else [.blockTypeNotAllowed]

def diagnose (a : ActiveLedger) (links : LinkTable) (authors : AuthorTable) (b : Block) :
    List Problem :=
  b.wholeProblems a ++ b.problems a links authors

def possibleProblems : List Problem := [.blockTooBig, .blockTypeNotAllowed]

end Block

theorem mem_keyProblems {h : HashAlgorithm} {s : SignatureAlgorithm} {authors : AuthorTable}
    {key : Bytes} {p : Problem} (hp : p ∈ keyProblems h s authors key) :
    p = .invalidAuthorKey ∨ p = .authorAlreadyPresent := by
  simp only [keyProblems, List.mem_append, List.mem_ite_nil_right, List.mem_singleton] at hp
  exact hp.imp And.right And.right

theorem mem_problemsOfKeys {h : HashAlgorithm} {s : SignatureAlgorithm} {authors : AuthorTable}
    {keys : List Bytes} {p : Problem} (hp : p ∈ problemsOfKeys h s authors keys) :
    p = .invalidAuthorKey ∨ p = .authorAlreadyPresent := by
  induction keys generalizing authors with
  | nil => simp [problemsOfKeys] at hp
  | cons key rest ih =>
    rcases List.mem_append.mp hp with hp | hp
    · exact mem_keyProblems hp
    · exact ih hp

section Possible

variable {a : ActiveLedger} {links : LinkTable} {authors : AuthorTable} {p : Problem}

theorem Terminal.mem_possibleProblems {content : Terminal}
    (h : p ∈ content.problems a links authors) : p ∈ possibleProblems := by
  cases content with
  | policy version payload => cases h
  | data payload => cases h
  | reference hashes =>
    obtain ⟨hash, _, h⟩ := List.mem_flatMap.mp h
    obtain ⟨_, h⟩ := List.mem_ite_nil_right.mp h
    simp [List.mem_singleton.mp h, possibleProblems]
  | addAuthors keys => rcases mem_problemsOfKeys h with rfl | rfl <;> simp [possibleProblems]
  | ack index link =>
    rw [problems] at h
    cases hknown : links[index]? with
    | none =>
      rw [hknown] at h
      simp [List.mem_singleton.mp h, possibleProblems]
    | some known =>
      rw [hknown] at h
      obtain ⟨_, h⟩ := List.mem_ite_nil_right.mp h
      simp [List.mem_singleton.mp h, possibleProblems]

theorem Wrapper.mem_possibleProblems {around : Wrapper Bytes} {inner : Bytes}
    (h : p ∈ around.problems a authors inner) : p ∈ possibleProblems := by
  cases around with
  | authorSignature author signature =>
    rw [problems] at h
    cases hkey : authors[author]? with
    | none =>
      rw [hkey] at h
      simp [List.mem_singleton.mp h, possibleProblems]
    | some key =>
      rw [hkey] at h
      obtain ⟨_, h⟩ := List.mem_ite_nil_left.mp h
      simp [List.mem_singleton.mp h, possibleProblems]
  | previousBlock hash =>
    obtain ⟨_, h⟩ := List.mem_ite_nil_right.mp h
    simp [List.mem_singleton.mp h, possibleProblems]
  | inContext link =>
    obtain ⟨_, h⟩ := List.mem_ite_nil_right.mp h
    simp [List.mem_singleton.mp h, possibleProblems]
  | updateContext => cases h

namespace Block

theorem count_problems_of_content {b : Block} (h : p ∉ Wrapper.possibleProblems) :
    (b.problems a links authors).count p = (b.content.problems a links authors).count p := by
  induction b with
  | terminal raw content => rfl
  | wrapped raw around inner ih =>
    have hnone : (around.problems a authors inner.raw).count p = 0 :=
      List.count_eq_zero.mpr fun hp => h (Wrapper.mem_possibleProblems hp)
    rw [problems, List.count_append, hnone, Nat.zero_add, ih, content]

theorem mem_possibleProblems {b : Block} (h : p ∈ b.wholeProblems a) : p ∈ possibleProblems := by
  simp only [wholeProblems, List.mem_append, List.mem_ite_nil_right, List.mem_ite_nil_left,
    List.mem_singleton] at h
  rcases h with ⟨_, rfl⟩ | ⟨_, rfl⟩ <;> simp [possibleProblems]

theorem count_diagnose_of_layers {b : Block} (h : p ∉ possibleProblems) :
    (b.diagnose a links authors).count p = (b.problems a links authors).count p := by
  have hnone : (b.wholeProblems a).count p = 0 :=
    List.count_eq_zero.mpr fun hp => h (mem_possibleProblems hp)
  rw [diagnose, List.count_append, hnone, Nat.zero_add]

theorem mem_diagnose_of_layers {b : Block} (h : p ∉ possibleProblems) :
    p ∈ b.diagnose a links authors ↔ p ∈ b.problems a links authors := by
  rw [← List.count_pos_iff, count_diagnose_of_layers h, List.count_pos_iff]

/-- What can only be wrong with the content is found as often as the content has it. -/
theorem count_diagnose_of_content {b : Block} (h : p ∈ Terminal.possibleProblems) :
    (b.diagnose a links authors).count p = (b.content.problems a links authors).count p := by
  have hwhole : p ∉ possibleProblems := by
    revert p
    decide
  have hwrapper : p ∉ Wrapper.possibleProblems := by
    revert p
    decide
  rw [count_diagnose_of_layers hwhole, count_problems_of_content hwrapper]

theorem mem_diagnose_of_content {b : Block} (h : p ∈ Terminal.possibleProblems) :
    p ∈ b.diagnose a links authors ↔ p ∈ b.content.problems a links authors := by
  rw [← List.count_pos_iff, count_diagnose_of_content h, List.count_pos_iff]

end Block

end Possible

namespace Findings

variable {a : ActiveLedger} {links : LinkTable} {f : Findings}

/-- More problems, the authors known by now, and whether the context is updated too. -/
def extend (f : Findings) (ps : List Problem) (authors : AuthorTable) (update : Bool) : Findings :=
  ⟨f.problems ++ ps.toArray, authors, f.updatesContext || update⟩

@[simp] theorem authors_extend (ps : List Problem) (authors : AuthorTable) (update : Bool) :
    (f.extend ps authors update).authors = authors := rfl

@[simp] theorem extend_nil : f.extend [] f.authors false = f := by simp [extend]

@[simp] theorem extend_extend (ps qs : List Problem) (t t' : AuthorTable) (u u' : Bool) :
    (f.extend ps t u).extend qs t' u' = f.extend (ps ++ qs) t' (u || u') := by
  simp [extend, Array.append_assoc, Bool.or_assoc]

theorem report_eq (p : Problem) : f.report p = f.extend [p] f.authors false := by
  simp [report, extend]

theorem reportIf_eq (bad : Bool) (p : Problem) :
    f.reportIf bad p = f.extend (if bad then [p] else []) f.authors false := by
  cases bad with
  | false => exact extend_nil.symm
  | true => exact report_eq p

theorem foldl_reportIf {α : Type} (bad : α → Bool) (p : Problem) (l : List α) :
    l.foldl (fun f x => f.reportIf (bad x) p) f =
      f.extend (l.flatMap fun x => if bad x then [p] else []) f.authors false := by
  induction l generalizing f with
  | nil => exact extend_nil.symm
  | cons x rest ih =>
    rw [List.foldl_cons, ih, reportIf_eq, authors_extend, extend_extend, List.flatMap_cons]
    rfl

theorem enrol_eq (h : HashAlgorithm) (authors : AuthorTable) (key : Bytes) :
    enrol h authors key =
      if authors.contains (h.hash key) then authors else authors.insert (h.hash key) key := by
  apply Std.ExtTreeMap.ext_getElem?
  intro id
  rw [enrol, Std.ExtTreeMap.getElem?_insertIfNew]
  by_cases hknown : h.hash key ∈ authors
  · simp [hknown]
  · simp [hknown, Std.ExtTreeMap.getElem?_insert]

theorem registerAuthor_eq (h : HashAlgorithm) (s : SignatureAlgorithm) (key : Bytes) :
    f.registerAuthor h s key =
      f.extend (keyProblems h s f.authors key) (enrol h f.authors key) false := by
  rw [registerAuthor, reportIf_eq, keyProblems, enrol_eq]
  simp only [authors_extend, bne_iff_ne]
  split
  · rw [report_eq, authors_extend, extend_extend]
    rfl
  · rw [List.append_nil]
    rfl

theorem foldl_registerAuthor_eq (h : HashAlgorithm) (s : SignatureAlgorithm) (keys : List Bytes) :
    keys.foldl (registerAuthor h s) f =
      f.extend (problemsOfKeys h s f.authors keys) (keys.foldl (enrol h) f.authors) false := by
  induction keys generalizing f with
  | nil => exact extend_nil.symm
  | cons key rest ih =>
    rw [List.foldl_cons, ih, registerAuthor_eq, authors_extend, extend_extend]
    rfl

theorem checkTerminal_eq (content : Terminal) :
    f.checkTerminal a links content =
      f.extend (content.problems a links f.authors) (content.addedKeys.foldl (enrol a.hasher) f.authors) false := by
  cases content with
  | policy version payload => exact extend_nil.symm
  | data payload => exact extend_nil.symm
  | reference hashes =>
    rw [checkTerminal, foldl_reportIf, Terminal.problems]
    simp only [bne_iff_ne]
    rfl
  | addAuthors keys => exact foldl_registerAuthor_eq a.hasher a.signer keys
  | ack index link =>
    rw [checkTerminal, Terminal.problems, Terminal.addedKeys, List.foldl_nil]
    cases links[index]? with
    | none => exact report_eq _
    | some known => simp only [reportIf_eq, bne_iff_ne]

theorem checkWrapper_eq (inner : Bytes) (around : Wrapper Bytes) :
    f.checkWrapper a inner around =
      f.extend (around.problems a f.authors inner) f.authors (around.kind == .updateContext) := by
  cases around with
  | authorSignature author signature =>
    rw [checkWrapper, Wrapper.problems]
    cases f.authors[author]? with
    | none => exact report_eq _
    | some key =>
      dsimp only
      rw [reportIf_eq]
      cases a.signer.verify key inner signature <;> rfl
  | previousBlock hash =>
    rw [checkWrapper, Wrapper.problems, reportIf_eq]
    simp only [bne_iff_ne]
    rfl
  | inContext link =>
    rw [checkWrapper, Wrapper.problems, reportIf_eq]
    simp only [bne_iff_ne]
    rfl
  | updateContext => simp [checkWrapper, Wrapper.problems, extend, Wrapper.kind]

theorem checkLayers_of_policy {b : Block} (h : b.content.kind = .policy) :
    f.checkLayers a links b = .error (.amendmentUnsupported a.state.blockCount) := by
  induction b generalizing f with
  | terminal raw content =>
    cases content with
    | policy version payload => rfl
    | data payload => cases h
    | reference hashes => cases h
    | addAuthors keys => cases h
    | ack index link => cases h
  | wrapped raw around inner ih => exact ih h

/-- The checks of layers find the problems of the layers. No wrapper changes what
the author table holds for the layers inside it. -/
theorem checkLayers_of_ne_policy {b : Block} (h : b.content.kind ≠ .policy) :
    f.checkLayers a links b = .ok (f.extend (b.problems a links f.authors)
      (b.content.addedKeys.foldl (enrol a.hasher) f.authors) b.updatesContext) := by
  induction b generalizing f with
  | terminal raw content =>
    have hcheck := @checkTerminal_eq a links f content
    cases content with
    | policy version payload => exact absurd rfl h
    | data payload => exact congrArg Except.ok hcheck
    | reference hashes => exact congrArg Except.ok hcheck
    | addAuthors keys => exact congrArg Except.ok hcheck
    | ack index link => exact congrArg Except.ok hcheck
  | wrapped raw around inner ih =>
    rw [checkLayers, ih h, checkWrapper_eq, authors_extend, extend_extend,
      Block.updatesContext_wrapped]
    rfl

theorem ofWhole_eq (authors : AuthorTable) (b : Block) :
    ofWhole a authors b = (start authors).extend (b.wholeProblems a) authors false := by
  have hshape : (if (!a.allowed.contains b.shape) = true then [Problem.blockTypeNotAllowed] else []) =
      if b.shape ∈ a.allowed then [] else [.blockTypeNotAllowed] := by
    by_cases hmem : b.shape ∈ a.allowed
    · rw [if_pos hmem, Std.ExtTreeSet.contains_iff_mem.mpr hmem]
      rfl
    · rw [if_neg hmem, Bool.eq_false_iff.mpr fun h => hmem (Std.ExtTreeSet.contains_iff_mem.mp h)]
      rfl
  rw [ofWhole, reportIf_eq, reportIf_eq, authors_extend, extend_extend, hshape]
  simp only [decide_eq_true_eq]
  rfl

theorem check_eq_ok {authors : AuthorTable} {b : Block} {f : Findings} :
    (ofWhole a authors b).checkLayers a links b = .ok f ↔ b.content.kind ≠ .policy ∧
      f = ⟨(b.diagnose a links authors).toArray, b.content.addedKeys.foldl (enrol a.hasher) authors,
        b.updatesContext⟩ := by
  by_cases hkind : b.content.kind = .policy
  · simp [checkLayers_of_policy hkind, hkind]
  · rw [ofWhole_eq, checkLayers_of_ne_policy hkind, authors_extend, extend_extend]
    simp only [ne_eq, hkind, not_false_eq_true, true_and, Except.ok.injEq]
    rw [eq_comm, extend, start, Block.diagnose, Array.empty_append]
    rfl

end Findings

namespace Validator

theorem receive_of_ne_policy {v : Validator} {x : Submission} {a : ActiveLedger} {b : Block}
    (hactive : v.active = some a) (hblock : x.block? v.config.maxBlockDepth = some b)
    (hkind : b.content.kind ≠ .policy) :
    v.receive x =
      (let next := a.state.advance a.hasher x.raw b.updatesContext
      (.ok ⟨some next, x.returned v.config.maxBlockDepth, b.diagnose a v.links v.authors⟩,
        { v with
          active := some { a with state := next }
          authors := b.content.addedKeys.foldl (enrol a.hasher) v.authors
          links := v.links.insert next.headIndex next.headLinkHash })) := by
  have hcheck := @Findings.check_eq_ok a v.links v.authors b _ |>.mpr ⟨hkind, rfl⟩
  rw [receive_of_block? hblock, submitBlock_of_checkLayers hactive hcheck,
    Submission.raw_block? hblock]
  rfl

theorem receive_of_policy {v : Validator} {x : Submission} {a : ActiveLedger} {b : Block}
    (hactive : v.active = some a) (hblock : x.block? v.config.maxBlockDepth = some b)
    (hkind : b.content.kind = .policy) :
    v.receive x = (.error (.amendmentUnsupported a.state.blockCount), v) := by
  rw [receive_of_block? hblock, submitBlock]
  simp only [hactive, Findings.checkLayers_of_policy hkind]
  rfl

theorem receive_of_malformed {v : Validator} {x : Submission} {a : ActiveLedger}
    (hactive : v.active = some a) (hblock : x.block? v.config.maxBlockDepth = none) :
    v.receive x =
      (let next := a.state.advance a.hasher x.raw false
      (.ok ⟨some next, none, [.malformedBlock]⟩,
        { v with active := some { a with state := next } })) := by
  simp only [receive_of_unread hblock, submitMalformed, hactive, install]

/-- What makes a validator active is a policy that it can follow, and nothing but the
keys of that policy is registered then. -/
theorem founded_of_receive {v : Validator} {x : Submission} {a : ActiveLedger}
    (hactive : v.active = none) (ha : (v.receive x).2.active = some a) :
    ∃ version payload,
      x.block? v.config.maxBlockDepth = some (.terminal x.raw (.policy version payload)) ∧
      Policy.parse version payload = .ok a.state.policy ∧
      a.state.policy.algorithms v.crypto = .ok (a.hasher, a.signer) ∧
      a.state.policy.allowedShapes = .ok a.allowed ∧
      a.state = .genesis a.hasher a.state.policy x.raw ∧
      (v.receive x).2.authors = a.state.policy.authorKeys.foldl (enrol a.hasher) v.authors := by
  have ht := transition_receive v x
  generalize (v.receive x).2 = v', (v.receive x).1 = answer at ht ha ⊢
  cases ht with
  | unread => simp [hactive] at ha
  | refused => simp [hactive] at ha
  | malformed h => simp [hactive] at h
  | amended h => simp [hactive] at h
  | extended h => simp [hactive] at h
  | @founded version payload _ _ _ _ _ _ _ hblock hpolicy halgorithms hallowed hauthors hstate =>
    obtain rfl := Option.some.inj ha
    rw [Findings.foldl_registerAuthor_eq] at hauthors
    subst hauthors hstate
    exact ⟨version, payload, hblock, hpolicy, halgorithms, hallowed, rfl, rfl⟩

end Validator

end TamperEvident
