import TamperEvident.Proofs.Ledger.Audited
import TamperEvident.Proofs.Ledger.Diagnosis

/-! The context of a ledger. It is the link of the last block that said so of itself,
and it stays that until another one does. -/

namespace TamperEvident

/-- Some layer of the block makes it the context. Bytes that are no block have no
layers. -/
def Commit.UpdatesContext (c : Commit) : Prop :=
  ∃ b, c.block = some b ∧ .updateContext ∈ b.shape

/-- Block number `i` is the last one that updates the context; the first block stands
in for one. -/
def IsContext (commits : List Commit) (i : Nat) : Prop :=
  (i = 0 ∨ ∃ c, commits[i]? = some c ∧ c.UpdatesContext) ∧
    ∀ (j : Nat) c, i < j → commits[j]? = some c → ¬ c.UpdatesContext

def Wrapper.contextLink? : Wrapper Bytes → Option Bytes
  | inContext link => some link
  | authorSignature _ _ | previousBlock _ | updateContext => none

def Block.contextLinks : Block → List Bytes
  | terminal _ _ => []
  | wrapped _ around inner => around.contextLink?.toList ++ inner.contextLinks

section IsContext

variable {commits : List Commit} {c : Commit} {i : Nat}

theorem updatesContext_some (raw : Bytes) (b : Block) :
    Commit.UpdatesContext ⟨raw, some b⟩ ↔ b.updatesContext = true := by
  rw [Block.updatesContext_iff]
  constructor
  · rintro ⟨b', hb', hmem⟩
    obtain rfl := Option.some.inj hb'
    exact hmem
  · intro hmem
    exact ⟨b, rfl, hmem⟩

theorem not_updatesContext_none (raw : Bytes) : ¬ Commit.UpdatesContext ⟨raw, none⟩ := by
  rintro ⟨b, hb, _⟩
  cases hb

theorem isContext_first (c : Commit) : IsContext [c] 0 := by
  refine ⟨.inl rfl, ?_⟩
  intro j c' hj hc'
  rw [List.getElem?_eq_none (show [c].length ≤ j from hj)] at hc'
  cases hc'

theorem isContext_concat (hc : c.UpdatesContext) : IsContext (commits ++ [c]) commits.length := by
  refine ⟨.inr ⟨c, List.getElem?_concat_length, hc⟩, ?_⟩
  intro j c' hj hc'
  rw [List.getElem?_eq_none (by simp only [List.length_append, List.length_singleton]; omega)]
    at hc'
  cases hc'

theorem IsContext.concat (h : IsContext commits i) (hi : i < commits.length)
    (hc : ¬ c.UpdatesContext) : IsContext (commits ++ [c]) i := by
  refine ⟨?_, ?_⟩
  · rw [List.getElem?_append_left hi]
    exact h.1
  · intro j c' hj hc'
    by_cases hlast : j = commits.length
    · rw [hlast, List.getElem?_concat_length] at hc'
      obtain rfl := Option.some.inj hc'
      exact hc
    · rw [getElem?_concat_of_ne hlast] at hc'
      exact h.2 j c' hj hc'

end IsContext

/-- The context of an active ledger is the link of a block of the chain over
`commits`, and no later block updates it. -/
def ActiveLedger.HasContext (a : ActiveLedger) (commits : List Commit) : Prop :=
  ∃ (i : Nat) (link : ChainLink), IsContext commits i ∧
    (Chain.replay a.hasher (commits.map Commit.raw))[i]? = some link ∧
    a.state.contextLinkHash = link.linkHash

theorem hasContext_genesis (hasher : HashAlgorithm) (signer : SignatureAlgorithm)
    (allowed : ShapeSet) (policy : Policy) (raw : Bytes) (block : Option Block) :
    (⟨.genesis hasher policy raw, hasher, signer, allowed⟩ : ActiveLedger).HasContext
      [⟨raw, block⟩] :=
  ⟨0, Chain.nextLink hasher none raw, isContext_first _, rfl, rfl⟩

theorem ActiveLedger.HasContext.advance {a : ActiveLedger} {links : LinkTable}
    {commits : List Commit} (h : a.HasContext commits) (hr : a.Records links commits) {c : Commit}
    {update : Bool} (hupdate : c.UpdatesContext ↔ update = true) :
    ({ a with state := a.state.advance a.hasher c.raw update } : ActiveLedger).HasContext
      (commits ++ [c]) := by
  cases update with
  | true =>
    have hlast := hr.getLast?_advance c true
    rw [List.getLast?_eq_getElem?, Chain.length_replay, List.length_map, List.length_append,
      List.length_singleton, Nat.add_sub_cancel] at hlast
    exact ⟨commits.length, _, isContext_concat (hupdate.mpr rfl), hlast, rfl⟩
  | false =>
    obtain ⟨i, link, hcontext, hlink, heq⟩ := h
    obtain ⟨hi, _⟩ := List.getElem?_eq_some_iff.mp hlink
    have hlt : i < commits.length := by
      rwa [Chain.length_replay, List.length_map] at hi
    refine ⟨i, link, hcontext.concat hlt (by simp [hupdate]), ?_, heq⟩
    rw [replay_commits_concat, List.getElem?_append_left hi]
    exact hlink

namespace Validator

variable {v v' : Validator} {x : Submission} {answer : Except LedgerError Report}

theorem hasContext_transition {commits : List Commit} (ht : Transition v x answer v')
    (hlinked : v.Linked commits) (h : ∀ a, v.active = some a → a.HasContext commits) :
    ∀ a, v'.active = some a →
      a.HasContext (commits ++ (x.commit? v.config.maxBlockDepth answer).toList) := by
  cases ht with
  | unread => simpa using h
  | refused => simpa using h
  | amended => simpa using h
  | founded hactive hblock hpolicy halgorithms hallowed hauthors hstate =>
    obtain ⟨rfl, _⟩ := hlinked.inactive hactive
    rintro a ha
    obtain rfl := Option.some.inj ha
    subst hstate
    exact hasContext_genesis _ _ _ _ _ _
  | malformed hactive hblock hnext =>
    rintro a ha
    obtain rfl := Option.some.inj ha
    subst hnext
    simp only [Submission.commit?_some, hblock, Option.toList_some]
    refine (h _ hactive).advance (hlinked.active hactive).2 (c := ⟨x.raw, none⟩) ?_
    simp [not_updatesContext_none]
  | extended hactive hblock hcheck hnext =>
    rintro a ha
    obtain rfl := Option.some.inj ha
    obtain ⟨_, rfl⟩ := Findings.check_eq_ok.mp hcheck
    subst hnext
    simp only [Submission.commit?_some, hblock, Option.toList_some]
    exact (h _ hactive).advance (hlinked.active hactive).2 (updatesContext_some _ _)

theorem hasContext_run (crypto : CryptoProvider) (config : Config) (inputs : List Submission) :
    let v := (Validator.empty crypto config).runFrom inputs
    ∀ a, v.active = some a → a.HasContext ((Validator.empty crypto config).commitsFrom inputs) := by
  have h0 : (Validator.empty crypto config).Linked [] ∧
      ∀ a, (Validator.empty crypto config).active = some a → a.HasContext [] :=
    ⟨⟨rfl, rfl⟩, fun a ha => by cases ha⟩
  exact (run_induction
    (motive := fun v commits => v.Linked commits ∧ ∀ a, v.active = some a → a.HasContext commits)
    (fun v commits x answer v' ht h => ⟨linked_transition ht h.1, hasContext_transition ht h.1 h.2⟩)
    h0 inputs).2

theorem Transition.contextLinkHash_eq {a : ActiveLedger} (ht : Transition v x answer v')
    (hactive : v.active = some a)
    (hkeep : ∀ c ∈ x.commit? v.config.maxBlockDepth answer, ¬ c.UpdatesContext) :
    ∃ a', v'.active = some a' ∧ a'.state.contextLinkHash = a.state.contextLinkHash := by
  cases ht with
  | unread hnone => simp [hactive] at hnone
  | refused hnone => simp [hactive] at hnone
  | founded hnone => simp [hactive] at hnone
  | amended => exact ⟨a, hactive, rfl⟩
  | malformed hactive' hblock hnext =>
    obtain rfl := Option.some.inj (hactive.symm.trans hactive')
    subst hnext
    exact ⟨_, rfl, rfl⟩
  | @extended _ b _ _ hactive' hblock hcheck hnext =>
    obtain rfl := Option.some.inj (hactive.symm.trans hactive')
    obtain ⟨_, rfl⟩ := Findings.check_eq_ok.mp hcheck
    subst hnext
    simp only [Submission.commit?_some, hblock] at hkeep
    have hupdate : b.updatesContext = false := by
      rw [← Bool.not_eq_true, ← updatesContext_some x.raw b]
      exact hkeep _ rfl
    refine ⟨_, rfl, ?_⟩
    simp only [LedgerState.advance, hupdate]
    rfl

theorem contextLinkHash_runFrom {a : ActiveLedger} (hactive : v.active = some a)
    {later : List Submission} (hkeep : ∀ c ∈ v.commitsFrom later, ¬ c.UpdatesContext) :
    ∃ a', (v.runFrom later).active = some a' ∧
      a'.state.contextLinkHash = a.state.contextLinkHash := by
  induction later generalizing v a with
  | nil => exact ⟨a, hactive, rfl⟩
  | cons x rest ih =>
    rw [commitsFrom, List.forall_mem_append] at hkeep
    obtain ⟨a', hactive', heq⟩ := (transition_receive v x).contextLinkHash_eq hactive
      fun c hc => hkeep.1 c (Option.mem_toList.mpr hc)
    obtain ⟨a'', hactive'', heq'⟩ := ih hactive' hkeep.2
    exact ⟨a'', hactive'', heq'.trans heq⟩

end Validator

section Mismatches

variable {a : ActiveLedger} {links : LinkTable} {authors : AuthorTable}

theorem Wrapper.count_problems_inContext (around : Wrapper Bytes) (inner : Bytes) :
    (around.problems a authors inner).count .contextLinkHashMismatch =
      around.contextLink?.toList.countP (· ≠ a.state.contextLinkHash) := by
  cases around with
  | authorSignature author signature =>
    rw [problems]
    cases authors[author]? with
    | none => rfl
    | some key =>
      dsimp only
      split <;> rfl
  | previousBlock hash => rw [problems]; split <;> rfl
  | inContext link =>
    rw [problems, contextLink?, Option.toList_some, List.countP_singleton]
    by_cases h : link = a.state.contextLinkHash <;> simp [h]
  | updateContext => rfl

/-- There is one problem for each layer that names another link as the context. -/
theorem Block.count_diagnose_inContext (b : Block) :
    (b.diagnose a links authors).count .contextLinkHashMismatch =
      b.contextLinks.countP (· ≠ a.state.contextLinkHash) := by
  rw [count_diagnose_of_layers (by decide)]
  induction b with
  | terminal raw content =>
    exact List.count_eq_zero.mpr fun hp => absurd (Terminal.mem_possibleProblems hp) (by decide)
  | wrapped raw around inner ih =>
    rw [problems, List.count_append, Wrapper.count_problems_inContext, ih, contextLinks,
      List.countP_append]

end Mismatches

/-- After any run the context is the link, in the replayed chain, of the last block
with a layer that updates it, or of the first block. Until the next such block, what
comes in between leaves it alone, so the layers that name another link, and they
only, are reported. -/
theorem context_after_run {crypto : CryptoProvider} {config : Config} {inputs : List Submission}
    {a : ActiveLedger}
    (hactive : ((Validator.empty crypto config).runFrom inputs).active = some a) :
    let v := (Validator.empty crypto config).runFrom inputs
    let commits := (Validator.empty crypto config).commitsFrom inputs
    crypto.hashNamed a.state.policy.hashingAlgorithm = .ok a.hasher ∧
    (∃ (i : Nat) (link : ChainLink), IsContext commits i ∧
      (Chain.replay a.hasher (commits.map Commit.raw))[i]? = some link ∧
      a.state.contextLinkHash = link.linkHash) ∧
    ∀ later, (∀ c ∈ v.commitsFrom later, ¬ c.UpdatesContext) →
      ∀ x b, x.block? config.maxBlockDepth = some b → b.content.kind ≠ .policy →
        ∃ report, ((v.runFrom later).receive x).1 = .ok report ∧
          report.problems.count .contextLinkHashMismatch =
            b.contextLinks.countP (· ≠ a.state.contextLinkHash) := by
  intro v commits
  have hlinked : v.Linked commits := Validator.linked_run crypto config inputs
  have hcrypto : v.crypto = crypto := Validator.crypto_runFrom _ inputs
  refine ⟨hcrypto ▸ (hlinked.active hactive).1,
    Validator.hasContext_run crypto config inputs a hactive, ?_⟩
  intro later hkeep x b hblock hkind
  obtain ⟨a', hactive', heq⟩ := Validator.contextLinkHash_runFrom hactive hkeep
  have hconfig : (v.runFrom later).config = config := by
    rw [Validator.config_runFrom, Validator.config_runFrom]
    rfl
  rw [← hconfig] at hblock
  rw [Validator.receive_of_ne_policy hactive' hblock hkind]
  refine ⟨_, rfl, ?_⟩
  rw [Block.count_diagnose_inContext, heq]

namespace Sample

def updating : List Submission := [.block founding, .bytes [85, 68, 5]]

def quiet : List Submission := [.bytes [0], .block founding]

def dataInContext (link : Bytes) : Block :=
  .wrapped ([67, 1] ++ link ++ [68, 5]) (.inContext link) (.terminal [68, 5] (.data [5]))

theorem run_updating :
    ∃ a links authors, (Validator.empty provider {}).runFrom updating =
      ⟨provider, {}, some a, links, authors⟩ := by
  obtain ⟨allowed, hfounding⟩ := receive_founding
  have hparse : Block.parse 8 [85, 68, 5] =
      .ok (.wrapped [85, 68, 5] .updateContext (.terminal [68, 5] (.data [5]))) := by cbv
  rw [updating, Validator.runFrom_cons, hfounding, Validator.runFrom_cons,
    Validator.receive_of_ne_policy rfl (Submission.block?_bytes.mpr hparse) Kind.noConfusion]
  exact ⟨_, _, _, rfl⟩

end Sample

theorem context_after_quiet :
    ∃ a, ((Validator.empty Sample.provider {}).runFrom Sample.updating).active = some a ∧
      (∃ (i : Nat) (link : ChainLink),
        IsContext ((Validator.empty Sample.provider {}).commitsFrom Sample.updating) i ∧
        a.state.contextLinkHash = link.linkHash) ∧
      ∃ report, ((((Validator.empty Sample.provider {}).runFrom Sample.updating).runFrom
          Sample.quiet).receive (.block (Sample.dataInContext a.state.contextLinkHash))).1 =
            .ok report ∧
        report.problems.count .contextLinkHashMismatch = 0 := by
  obtain ⟨a, links, authors, hrun⟩ := Sample.run_updating
  obtain ⟨_, ⟨i, link, hi, _, hcontext⟩, hlater⟩ :=
    context_after_run (congrArg Validator.active hrun)
  rw [hrun] at hlater ⊢
  have hkeep : ∀ c ∈ Validator.commitsFrom ⟨Sample.provider, {}, some a, links, authors⟩
      Sample.quiet, ¬ c.UpdatesContext := by
    rw [Sample.quiet, Validator.commitsFrom, Sample.receive_junk, Validator.commitsFrom,
      Sample.receive_founding_again]
    exact List.forall_mem_singleton.mpr (not_updatesContext_none [0])
  obtain ⟨report, hreport, hcount⟩ := hlater _ hkeep
    (.block (Sample.dataInContext a.state.contextLinkHash)) _ rfl Kind.noConfusion
  refine ⟨a, rfl, ⟨i, link, hi, hcontext⟩, report, hreport, ?_⟩
  rw [hcount]
  simp [Sample.dataInContext, Block.contextLinks, Wrapper.contextLink?]

end TamperEvident
