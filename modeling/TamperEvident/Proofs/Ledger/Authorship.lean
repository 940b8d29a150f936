import TamperEvident.Proofs.Ledger.Diagnosis
import TamperEvident.Proofs.Ledger.LinkedChain

/-! Who may sign for an author. The first key that is announced with an id has it for
good, and each later one is reported as already present. -/

namespace TamperEvident

def Terminal.policyKeys : Terminal → List Bytes
  | policy version payload =>
    ((Policy.parse version payload).toOption.map Policy.authorKeys).getD []
  | addAuthors _ | data _ | reference _ | ack _ _ => []

/-- Bytes that are no block add no keys. -/
def Commit.addedKeys (c : Commit) : List Bytes :=
  (c.block.map fun b => b.content.addedKeys).getD []

/-- All keys that a chain brings, in order: those of the policy in its first block,
then those that each later block adds. -/
def announcedKeys : List Commit → List Bytes
  | [] => []
  | first :: later =>
    (first.block.map fun b => b.content.policyKeys).getD [] ++ later.flatMap Commit.addedKeys

def repeatedKeys (answers : List (Except LedgerError Report)) : Nat :=
  (answers.flatMap problemsOf).count .authorAlreadyPresent

theorem announcedKeys_concat {commits : List Commit} {first : Commit}
    (hfirst : commits.head? = some first) (c : Commit) :
    announcedKeys (commits ++ [c]) = announcedKeys commits ++ c.addedKeys := by
  cases commits with
  | nil => cases hfirst
  | cons first' later =>
    rw [List.cons_append, announcedKeys, announcedKeys, List.flatMap_append, List.flatMap_singleton,
      List.append_assoc]

theorem repeatedKeys_concat (answers : List (Except LedgerError Report))
    (answer : Except LedgerError Report) :
    repeatedKeys (answers ++ [answer]) =
      repeatedKeys answers + (problemsOf answer).count .authorAlreadyPresent := by
  rw [repeatedKeys, List.flatMap_append, List.flatMap_singleton, List.count_append]
  rfl

section Enrol

variable {h : HashAlgorithm} {s : SignatureAlgorithm} {authors : AuthorTable}

theorem getElem?_enrol (key id : Bytes) :
    (enrol h authors key)[id]? = authors[id]?.or (if h.hash key = id then some key else none) := by
  rw [enrol, Std.ExtTreeMap.getElem?_insertIfNew]
  by_cases hid : h.hash key = id
  · subst hid
    have hmem : h.hash key ∈ authors ↔ authors[h.hash key]?.isSome = true :=
      Std.ExtTreeMap.mem_iff_isSome_getElem?
    cases hknown : authors[h.hash key]? with
    | none => simp [hmem, hknown]
    | some known => simp [hmem, hknown]
  · simp [hid]

/-- A key that is known already counts as a problem, any other one as an entry. -/
theorem count_keyProblems (key : Bytes) :
    (keyProblems h s authors key).count .authorAlreadyPresent + (enrol h authors key).size =
      authors.size + 1 := by
  have hlength : (if key.length ≠ s.publicKeyLength then [Problem.invalidAuthorKey]
      else []).count .authorAlreadyPresent = 0 := by
    split <;> rfl
  rw [keyProblems, List.count_append, hlength, Nat.zero_add, enrol,
    Std.ExtTreeMap.size_insertIfNew]
  by_cases hknown : h.hash key ∈ authors
  · simp [hknown]
    omega
  · simp [hknown]

theorem count_problemsOfKeys (keys : List Bytes) :
    (problemsOfKeys h s authors keys).count .authorAlreadyPresent +
      (keys.foldl (enrol h) authors).size = authors.size + keys.length := by
  induction keys generalizing authors with
  | nil => simp [problemsOfKeys]
  | cons key rest ih =>
    have hkey := @count_keyProblems h s authors key
    have hrest := @ih (enrol h authors key)
    rw [problemsOfKeys, List.count_append, List.foldl_cons, List.length_cons]
    omega

/-- Of the keys with one id, the one that was there first stays. -/
theorem getElem?_foldl_enrol (keys : List Bytes) (id : Bytes) :
    (keys.foldl (enrol h) authors)[id]? = authors[id]?.or (keys.find? (h.hash · == id)) := by
  induction keys generalizing authors with
  | nil => rw [List.foldl_nil, List.find?_nil, Option.or_none]
  | cons key rest ih =>
    rw [List.foldl_cons, ih, getElem?_enrol, Option.or_assoc, List.find?_cons]
    by_cases hid : h.hash key = id
    · simp [hid]
    · simp [beq_eq_false_iff_ne.mpr hid, hid]

theorem mem_foldl_enrol {keys : List Bytes} {id : Bytes} :
    id ∈ keys.foldl (enrol h) authors ↔ id ∈ authors ∨ ∃ key ∈ keys, h.hash key = id := by
  rw [Std.ExtTreeMap.mem_iff_isSome_getElem?, getElem?_foldl_enrol, Option.isSome_or,
    Bool.or_eq_true, ← Std.ExtTreeMap.mem_iff_isSome_getElem?, List.find?_isSome]
  simp only [beq_iff_eq]

end Enrol

section Problems

variable {a : ActiveLedger} {links : LinkTable} {authors : AuthorTable}

theorem Terminal.count_problems_addedKeys (content : Terminal) :
    (content.problems a links authors).count .authorAlreadyPresent +
      (content.addedKeys.foldl (enrol a.hasher) authors).size =
        authors.size + content.addedKeys.length := by
  cases content with
  | policy version payload => exact Nat.zero_add _
  | data payload => exact Nat.zero_add _
  | reference hashes =>
    have hnone : (Terminal.problems a links authors (.reference hashes)).count
        .authorAlreadyPresent = 0 := by
      rw [List.count_eq_zero]
      intro hp
      obtain ⟨hash, _, hp⟩ := List.mem_flatMap.mp hp
      obtain ⟨_, hp⟩ := List.mem_ite_nil_right.mp hp
      cases List.mem_singleton.mp hp
    rw [hnone]
    exact Nat.zero_add _
  | addAuthors keys => exact count_problemsOfKeys keys
  | ack index link =>
    have hnone : (Terminal.problems a links authors (.ack index link)).count
        .authorAlreadyPresent = 0 := by
      rw [problems]
      cases links[index]? with
      | none => rfl
      | some known =>
        dsimp only
        split <;> rfl
    rw [hnone]
    exact Nat.zero_add _

theorem Block.count_diagnose_addedKeys (b : Block) :
    (b.diagnose a links authors).count .authorAlreadyPresent +
      (b.content.addedKeys.foldl (enrol a.hasher) authors).size =
        authors.size + b.content.addedKeys.length := by
  rw [count_diagnose_of_content (by decide), Terminal.count_problems_addedKeys]

end Problems

namespace Validator

variable {v v' : Validator} {x : Submission} {answer : Except LedgerError Report}

theorem problem_of_submitGenesis {b : Block} {p : Problem}
    (h : v.submitGenesis b = (⟨none, none, [p]⟩, v)) :
    p = .cannotParsePolicy ∨ p = .blockTypeNotAllowed := by
  unfold submitGenesis at h
  dsimp only at h
  split at h
  · split at h
    · exact .inl (List.singleton_inj.mp (Report.mk.inj (Prod.mk.inj h).1).2.2).symm
    · split at h
      · cases (Report.mk.inj (Prod.mk.inj h).1).1
      · exact .inl (List.singleton_inj.mp (Report.mk.inj (Prod.mk.inj h).1).2.2).symm
  · exact .inr (List.singleton_inj.mp (Report.mk.inj (Prod.mk.inj h).1).2.2).symm

structure Enrolled (v : Validator) (commits : List Commit)
    (answers : List (Except LedgerError Report)) : Prop where
  blank : v.active = none → commits = [] ∧ v.authors = ∅
  count : repeatedKeys answers + v.authors.size = (announcedKeys commits).length
  first : ∀ a, v.active = some a → ∀ id,
    v.authors[id]? = (announcedKeys commits).find? (a.hasher.hash · == id)
  founded : ∀ a, v.active = some a → ∃ raw version payload,
    commits.head? = some ⟨raw, some (.terminal raw (.policy version payload))⟩ ∧
      Policy.parse version payload = .ok a.state.policy

section Enrolled

variable {commits : List Commit} {answers : List (Except LedgerError Report)}

/-- What is neither committed to nor a repeated key changes nothing. -/
theorem Enrolled.answered (h : v.Enrolled commits answers)
    (hnone : (problemsOf answer).count .authorAlreadyPresent = 0) :
    v.Enrolled commits (answers ++ [answer]) := by
  refine ⟨h.blank, ?_, h.first, h.founded⟩
  rw [repeatedKeys_concat, hnone, Nat.add_zero]
  exact h.count

theorem enrolled_founded {a : ActiveLedger} {raw payload : Bytes} {version : UInt64}
    {links : LinkTable} {report : Report} (h : v.Enrolled commits answers)
    (hactive : v.active = none) (hpolicy : Policy.parse version payload = .ok a.state.policy)
    (hproblems : report.problems =
      problemsOfKeys a.hasher a.signer v.authors a.state.policy.authorKeys) :
    ({ v with
      active := some a
      authors := a.state.policy.authorKeys.foldl (enrol a.hasher) v.authors
      links := links } : Validator).Enrolled
      (commits ++ [⟨raw, some (.terminal raw (.policy version payload))⟩])
      (answers ++ [.ok report]) := by
  obtain ⟨rfl, hauthors⟩ := h.blank hactive
  have hkeys : announcedKeys [⟨raw, some (.terminal raw (.policy version payload))⟩] =
      a.state.policy.authorKeys := by
    simp [announcedKeys, Block.content, Terminal.policyKeys, hpolicy, Except.toOption]
  have hcount := @count_problemsOfKeys a.hasher a.signer v.authors a.state.policy.authorKeys
  have hbefore := h.count
  rw [List.nil_append]
  refine ⟨fun hnone => absurd hnone (Option.some_ne_none _), ?_, ?_, ?_⟩
  · rw [hkeys, repeatedKeys_concat, problemsOf, hproblems]
    rw [announcedKeys, List.length_nil] at hbefore
    dsimp only
    omega
  · intro a' ha' id
    obtain rfl := Option.some.inj ha'
    rw [hkeys, getElem?_foldl_enrol, hauthors, Std.ExtTreeMap.getElem?_empty, Option.none_or]
  · intro a' ha'
    obtain rfl := Option.some.inj ha'
    exact ⟨raw, version, payload, rfl, hpolicy⟩

/-- A chain goes on with a block or a gap, under the policy that it has. -/
theorem Enrolled.extended {a a' : ActiveLedger} {c : Commit} {links : LinkTable}
    {report : Report} (h : v.Enrolled commits answers) (keys : List Bytes)
    (hactive : v.active = some a) (hhasher : a'.hasher = a.hasher)
    (hpolicy : a'.state.policy = a.state.policy) (hkeys : c.addedKeys = keys)
    (hcount : report.problems.count .authorAlreadyPresent +
      (keys.foldl (enrol a.hasher) v.authors).size = v.authors.size + keys.length) :
    ({ v with
      active := some a'
      authors := keys.foldl (enrol a.hasher) v.authors
      links := links } : Validator).Enrolled (commits ++ [c]) (answers ++ [.ok report]) := by
  have hbefore := h.count
  obtain ⟨raw, version, payload, hhead, hparse⟩ := h.founded a hactive
  have hconcat := announcedKeys_concat hhead c
  rw [hkeys] at hconcat
  refine ⟨fun hnone => absurd hnone (Option.some_ne_none _), ?_, ?_, ?_⟩
  · rw [hconcat, repeatedKeys_concat, problemsOf, List.length_append]
    dsimp only
    omega
  · intro a'' ha'' id
    obtain rfl := Option.some.inj ha''
    rw [hconcat, getElem?_foldl_enrol, h.first a hactive, List.find?_append, hhasher]
  · intro a'' ha''
    obtain rfl := Option.some.inj ha''
    rw [List.head?_append, hhead, hpolicy]
    exact ⟨raw, version, payload, rfl, hparse⟩

theorem enrolled_transition (ht : Transition v x answer v') (h : v.Enrolled commits answers) :
    v'.Enrolled (commits ++ (x.commit? v.config.maxBlockDepth answer).toList)
      (answers ++ [answer]) := by
  cases ht with
  | unread hactive hblock =>
    simp only [Submission.commit?_none, Option.toList_none, List.append_nil]
    exact h.answered rfl
  | refused hactive hblock hrefused =>
    simp only [Submission.commit?_none, Option.toList_none, List.append_nil]
    refine h.answered ?_
    rcases problem_of_submitGenesis hrefused with rfl | rfl <;> rfl
  | amended hactive hblock hcheck =>
    simp only [Submission.commit?_error, Option.toList_none, List.append_nil]
    exact h.answered rfl
  | @founded _ _ _ hasher signer _ _ _ hactive hblock hpolicy halgorithms hallowed hauthors
      hstate =>
    rw [Findings.foldl_registerAuthor_eq] at hauthors
    subst hauthors hstate
    simp only [Submission.commit?_some, hblock, Option.toList_some]
    refine enrolled_founded (a := ⟨_, hasher, signer, _⟩) h hactive hpolicy ?_
    simp [Findings.extend, Findings.start, LedgerState.genesis]
  | malformed hactive hblock hnext =>
    subst hnext
    simp only [Submission.commit?_some, hblock, Option.toList_some]
    exact h.extended [] hactive rfl rfl rfl (Nat.zero_add _)
  | @extended _ b _ _ hactive hblock hcheck hnext =>
    obtain ⟨_, rfl⟩ := Findings.check_eq_ok.mp hcheck
    subst hnext
    simp only [Submission.commit?_some, hblock, Option.toList_some]
    exact h.extended b.content.addedKeys hactive rfl rfl rfl (Block.count_diagnose_addedKeys b)

end Enrolled

/-- An entry is never removed, and no other key takes its place. -/
theorem Transition.getElem?_authors (ht : Transition v x answer v') {id key : Bytes}
    (hkey : v.authors[id]? = some key) : v'.authors[id]? = some key := by
  cases ht with
  | unread => exact hkey
  | refused => exact hkey
  | amended => exact hkey
  | malformed => exact hkey
  | founded hactive hblock hpolicy halgorithms hallowed hauthors hstate =>
    rw [Findings.foldl_registerAuthor_eq] at hauthors
    subst hauthors
    simp only [Findings.authors_extend, Findings.start, getElem?_foldl_enrol, hkey, Option.some_or]
  | extended hactive hblock hcheck hnext =>
    obtain ⟨_, rfl⟩ := Findings.check_eq_ok.mp hcheck
    simp only [getElem?_foldl_enrol, hkey, Option.some_or]

theorem getElem?_authors_runFrom {id key : Bytes} (hkey : v.authors[id]? = some key)
    (inputs : List Submission) : (v.runFrom inputs).authors[id]? = some key := by
  induction inputs generalizing v with
  | nil => exact hkey
  | cons x rest ih => exact ih ((transition_receive v x).getElem?_authors hkey)

theorem enrolled_empty (crypto : CryptoProvider) (config : Config) :
    (Validator.empty crypto config).Enrolled [] [] where
  blank _ := ⟨rfl, rfl⟩
  count := rfl
  first a ha := by cases ha
  founded a ha := by cases ha

theorem enrolled_run (crypto : CryptoProvider) (config : Config) (inputs : List Submission) :
    ((Validator.empty crypto config).runFrom inputs).Enrolled
      ((Validator.empty crypto config).commitsFrom inputs)
      ((Validator.empty crypto config).answersFrom inputs) :=
  answers_induction (motive := Enrolled) (fun _ _ _ _ _ _ ht h => enrolled_transition ht h)
    (enrolled_empty crypto config) inputs

end Validator

/-- After any run the authors are the announced keys by their ids, the first one for
each id, and every other one was reported. Keys come from the policy of the first
block and from the blocks that were read and committed to. No entry ever changes. -/
theorem authors_after_run (crypto : CryptoProvider) (config : Config) (inputs : List Submission) :
    let v := (Validator.empty crypto config).runFrom inputs
    let commits := (Validator.empty crypto config).commitsFrom inputs
    let keys := announcedKeys commits
    repeatedKeys ((Validator.empty crypto config).answersFrom inputs) + v.authors.size =
      keys.length ∧
    (v.active = none → commits = [] ∧ v.authors = ∅) ∧
    (∀ a, v.active = some a →
      crypto.hashNamed a.state.policy.hashingAlgorithm = .ok a.hasher ∧
      (∃ raw version payload,
        commits.head? = some ⟨raw, some (.terminal raw (.policy version payload))⟩ ∧
          Policy.parse version payload = .ok a.state.policy) ∧
      (∀ id, v.authors[id]? = keys.find? (a.hasher.hash · == id)) ∧
      ∀ (id key : Bytes), v.authors[id]? = some key → a.hasher.hash key = id) ∧
    ∀ further (id key : Bytes), v.authors[id]? = some key →
      (v.runFrom further).authors[id]? = some key := by
  intro v commits keys
  have henrolled : v.Enrolled commits _ := Validator.enrolled_run crypto config inputs
  have hlinked : v.Linked commits := Validator.linked_run crypto config inputs
  have hcrypto : v.crypto = crypto := Validator.crypto_runFrom _ inputs
  refine ⟨henrolled.count, henrolled.blank, ?_,
    fun further id key hkey => Validator.getElem?_authors_runFrom hkey further⟩
  intro a hactive
  have hfirst := henrolled.first a hactive
  refine ⟨hcrypto ▸ (hlinked.active hactive).1, henrolled.founded a hactive, hfirst, ?_⟩
  intro id key hkey
  rw [hfirst] at hkey
  have hid := List.find?_some hkey
  exact beq_iff_eq.mp hid

end TamperEvident
