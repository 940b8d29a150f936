import TamperEvident.Proofs.Ledger.Run
import TamperEvident.Proofs.Replay

/-! The chain a validator keeps, block by block, is the chain that a replay of
all it committed to gives. -/

namespace TamperEvident

/-- The link recorded at an index: that of a block; bytes that are no block
leave a gap. -/
def recordedLink (h : HashAlgorithm) (commits : List Commit) (i : Nat) : Option Bytes := do
  let commit ← commits[i]?
  let link ← (Chain.replay h (commits.map Commit.raw))[i]?
  if commit.block.isSome then some link.linkHash else none

theorem replay_commits_concat (h : HashAlgorithm) (commits : List Commit) (c : Commit) :
    Chain.replay h ((commits ++ [c]).map Commit.raw) =
      Chain.replay h (commits.map Commit.raw) ++
        [Chain.nextLink h (Chain.headLink? (Chain.replay h (commits.map Commit.raw))) c.raw] := by
  rw [List.map_append, List.map_singleton, Chain.replay_concat]

theorem getElem?_concat_of_ne {β : Type} {l : List β} {i : Nat} (h : i ≠ l.length) (x : β) :
    (l ++ [x])[i]? = l[i]? := by
  by_cases hlt : i < l.length
  · exact List.getElem?_append_left hlt
  · have hlen : (l ++ [x]).length = l.length + 1 := List.length_append
    rw [List.getElem?_eq_none (by omega), List.getElem?_eq_none (by omega)]

theorem recordedLink_concat (h : HashAlgorithm) (commits : List Commit) (c : Commit) (i : Nat) :
    recordedLink h (commits ++ [c]) i =
      if i = commits.length then
        if c.block.isSome then
          some (Chain.nextLink h (Chain.headLink? (Chain.replay h (commits.map Commit.raw)))
            c.raw).linkHash
        else none
      else recordedLink h commits i := by
  have hlen : (Chain.replay h (commits.map Commit.raw)).length = commits.length := by
    rw [Chain.length_replay, List.length_map]
  rw [recordedLink, replay_commits_concat, recordedLink]
  by_cases hi : i = commits.length
  · rw [if_pos hi, hi, List.getElem?_concat_length, ← hlen, List.getElem?_concat_length]
    rfl
  · rw [if_neg hi, getElem?_concat_of_ne hi, getElem?_concat_of_ne (hlen ▸ hi)]

theorem getElem?_insert_link (links : LinkTable) (index : UInt64) (link : Bytes) (i : UInt64) :
    (links.insert index link)[i]? = if i = index then some link else links[i]? := by
  rw [Std.ExtTreeMap.getElem?_insert]
  by_cases hi : i = index
  · rw [if_pos hi, if_pos (Std.compare_eq_iff_eq.mpr hi.symm)]
  · rw [if_neg hi, if_neg fun hc => hi (Std.compare_eq_iff_eq.mp hc).symm]

theorem eq_ofNat_iff {i : UInt64} {n : Nat} (hn : n < 2 ^ 64) : i = UInt64.ofNat n ↔ i.toNat = n := by
  rw [← UInt64.toNat_inj, UInt64.toNat_ofNat_of_lt' hn]

theorem LedgerState.headIndex_genesis (h : HashAlgorithm) (policy : Policy) (raw : Bytes) :
    (LedgerState.genesis h policy raw).headIndex = 0 := UInt64.sub_self 1

theorem LedgerState.blockCount_advance (h : HashAlgorithm) (s : LedgerState) (raw : Bytes)
    (update : Bool) : (s.advance h raw update).blockCount = s.blockCount + 1 := rfl

theorem LedgerState.headIndex_advance (h : HashAlgorithm) (s : LedgerState) (raw : Bytes)
    (update : Bool) : (s.advance h raw update).headIndex = s.blockCount :=
  UInt64.add_sub_cancel s.blockCount 1

/-- An active ledger and a table of links stand for the chain over `commits`. The table has no room
for more links than there are numbers. -/
structure ActiveLedger.Records (a : ActiveLedger) (links : LinkTable) (commits : List Commit) :
    Prop where
  count : a.state.blockCount = UInt64.ofNat commits.length
  head : (Chain.replay a.hasher (commits.map Commit.raw)).getLast? =
    some ⟨a.state.headBlockHash, a.state.headLinkHash⟩
  links : commits.length ≤ 2 ^ 64 → ∀ i : UInt64, links[i]? = recordedLink a.hasher commits i.toNat

namespace ActiveLedger.Records

variable {a : ActiveLedger} {links : LinkTable} {commits : List Commit}

theorem headLink (h : a.Records links commits) :
    Chain.headLink? (Chain.replay a.hasher (commits.map Commit.raw)) =
      some a.state.headLinkHash := by
  rw [Chain.headLink?, h.head]
  rfl

theorem getLast?_advance (h : a.Records links commits) (c : Commit) (update : Bool) :
    (Chain.replay a.hasher ((commits ++ [c]).map Commit.raw)).getLast? =
      some ⟨(a.state.advance a.hasher c.raw update).headBlockHash,
        (a.state.advance a.hasher c.raw update).headLinkHash⟩ := by
  rw [replay_commits_concat, List.getLast?_concat, h.headLink]
  rfl

theorem count_advance (h : a.Records links commits) (c : Commit) (update : Bool) :
    (a.state.advance a.hasher c.raw update).blockCount = UInt64.ofNat (commits ++ [c]).length := by
  rw [LedgerState.blockCount_advance, h.count, List.length_append, UInt64.ofNat_add]
  rfl

theorem headIndex_eq (h : a.Records links commits) (hpos : 0 < commits.length) :
    a.state.headIndex = UInt64.ofNat (commits.length - 1) := by
  obtain ⟨n, hn⟩ := Nat.exists_eq_add_of_lt hpos
  rw [LedgerState.headIndex, h.count, hn, Nat.zero_add, UInt64.ofNat_add, Nat.add_sub_cancel]
  exact UInt64.add_sub_cancel _ _

theorem gap (h : a.Records links commits) (raw : Bytes) {next : LedgerState}
    (hnext : a.state.advance a.hasher raw false = next) :
    ({ a with state := next } : ActiveLedger).Records links (commits ++ [⟨raw, none⟩]) := by
  subst hnext
  refine ⟨h.count_advance _ _, h.getLast?_advance ⟨raw, none⟩ false, ?_⟩
  · intro hroom i
    rw [List.length_append] at hroom
    rw [recordedLink_concat, h.links (Nat.le_of_succ_le hroom) i]
    by_cases hi : i.toNat = commits.length
    · rw [if_pos hi, hi, recordedLink, List.getElem?_eq_none (Nat.le_refl _)]
      rfl
    · rw [if_neg hi]

theorem block (h : a.Records links commits) (raw : Bytes) (b : Block) {update : Bool}
    {next : LedgerState} (hnext : a.state.advance a.hasher raw update = next) :
    ({ a with state := next } : ActiveLedger).Records
      (links.insert next.headIndex next.headLinkHash) (commits ++ [⟨raw, some b⟩]) := by
  subst hnext
  refine ⟨h.count_advance _ _, h.getLast?_advance ⟨raw, some b⟩ update, ?_⟩
  intro hroom i
  rw [List.length_append] at hroom
  rw [recordedLink_concat, h.headLink, getElem?_insert_link, LedgerState.headIndex_advance, h.count,
    h.links (Nat.le_of_succ_le hroom) i]
  simp only [eq_ofNat_iff hroom]
  rfl

end ActiveLedger.Records

theorem records_genesis (hasher : HashAlgorithm) (signer : SignatureAlgorithm) (allowed : ShapeSet)
    (policy : Policy) (raw : Bytes) (b : Block) {state : LedgerState}
    (hstate : LedgerState.genesis hasher policy raw = state) :
    (⟨state, hasher, signer, allowed⟩ : ActiveLedger).Records
      ((∅ : LinkTable).insert state.headIndex state.headLinkHash) [⟨raw, some b⟩] := by
  subst hstate
  refine ⟨rfl, rfl, ?_⟩
  intro _ i
  have hc := recordedLink_concat hasher [] ⟨raw, some b⟩ i.toNat
  rw [List.nil_append] at hc
  rw [hc, getElem?_insert_link, Std.ExtTreeMap.getElem?_empty, LedgerState.headIndex_genesis]
  simp only [List.length_nil, ← eq_ofNat_iff (Nat.two_pow_pos 64)]
  rfl

theorem Policy.algorithms_eq_ok {crypto : CryptoProvider} {policy : Policy}
    {hasher : HashAlgorithm} {signer : SignatureAlgorithm} :
    policy.algorithms crypto = .ok (hasher, signer) ↔
      crypto.hashNamed policy.hashingAlgorithm = .ok hasher ∧
        crypto.signatureNamed policy.signingAlgorithm = .ok signer := by
  rw [algorithms, bind_eq_ok]
  constructor
  · rintro ⟨hasher', hhash, h⟩
    obtain ⟨signer', hsign, h⟩ := bind_eq_ok.mp h
    obtain ⟨rfl, rfl⟩ := Prod.mk.inj (Except.ok.inj h)
    exact ⟨hhash, hsign⟩
  · rintro ⟨hhash, hsign⟩
    exact ⟨hasher, hhash, bind_eq_ok.mpr ⟨signer, hsign, rfl⟩⟩

theorem hashNamed_of_algorithms {crypto : CryptoProvider} {policy : Policy}
    {hasher : HashAlgorithm} {signer : SignatureAlgorithm}
    (h : policy.algorithms crypto = .ok (hasher, signer)) :
    crypto.hashNamed policy.hashingAlgorithm = .ok hasher := (Policy.algorithms_eq_ok.mp h).1

namespace Validator

/-- A validator stands for the chain over `commits`, hashed as its policy says. -/
def Linked (v : Validator) (commits : List Commit) : Prop :=
  match v.active with
  | none => commits = [] ∧ v.links = ∅
  | some a =>
    v.crypto.hashNamed a.state.policy.hashingAlgorithm = .ok a.hasher ∧ a.Records v.links commits

theorem Linked.inactive {v : Validator} {commits : List Commit} (h : v.Linked commits)
    (hactive : v.active = none) : commits = [] ∧ v.links = ∅ := by
  rwa [Linked, hactive] at h

theorem Linked.active {v : Validator} {commits : List Commit} (h : v.Linked commits)
    {a : ActiveLedger} (hactive : v.active = some a) :
    v.crypto.hashNamed a.state.policy.hashingAlgorithm = .ok a.hasher ∧
      a.Records v.links commits := by
  rwa [Linked, hactive] at h

theorem Linked.blockCount_eq {v : Validator} {commits : List Commit} (h : v.Linked commits) :
    v.blockCount = UInt64.ofNat commits.length := by
  rw [blockCount, state?]
  cases hactive : v.active with
  | none =>
    rw [(h.inactive hactive).1]
    rfl
  | some a => exact (h.active hactive).2.count

theorem linked_transition {v v' : Validator} {commits : List Commit} {x : Submission}
    {answer : Except LedgerError Report} (ht : Transition v x answer v') (h : v.Linked commits) :
    v'.Linked (commits ++ (x.commit? v.config.maxBlockDepth answer).toList) := by
  cases ht with
  | unread hactive hblock => simpa using h
  | refused hactive hblock _ => simpa using h
  | amended hactive hblock _ => simpa using h
  | founded hactive hblock hpolicy halgorithms hallowed hauthors hstate =>
    obtain ⟨rfl, hlinks⟩ := h.inactive hactive
    simp only [Submission.commit?_some, hblock, Option.toList_some,
      List.nil_append, hlinks]
    refine ⟨?_, records_genesis _ _ _ _ _ _ hstate⟩
    subst hstate
    exact hashNamed_of_algorithms halgorithms
  | malformed hactive hblock hnext =>
    obtain ⟨hhash, hrecords⟩ := h.active hactive
    simp only [Submission.commit?_some, hblock, Option.toList_some]
    refine ⟨?_, hrecords.gap _ hnext⟩
    subst hnext
    exact hhash
  | extended hactive hblock _ hnext =>
    obtain ⟨hhash, hrecords⟩ := h.active hactive
    simp only [Submission.commit?_some, hblock, Option.toList_some]
    refine ⟨?_, hrecords.block _ _ hnext⟩
    subst hnext
    exact hhash

theorem linked_run (crypto : CryptoProvider) (config : Config) (inputs : List Submission) :
    ((Validator.empty crypto config).runFrom inputs).Linked
      ((Validator.empty crypto config).commitsFrom inputs) := by
  have h0 : (Validator.empty crypto config).Linked [] := ⟨rfl, rfl⟩
  exact run_induction (motive := Linked) (fun _ _ _ _ _ => linked_transition) h0 inputs

end Validator

theorem recordedLink_of_lt {h : HashAlgorithm} {commits : List Commit} {i : Nat} {commit : Commit}
    (hi : commits[i]? = some commit) :
    ∃ link, (Chain.replay h (commits.map Commit.raw))[i]? = some link ∧
      recordedLink h commits i = if commit.block.isSome then some link.linkHash else none := by
  have hlt : i < (Chain.replay h (commits.map Commit.raw)).length := by
    rw [Chain.length_replay, List.length_map]
    exact (List.getElem?_eq_some_iff.mp hi).1
  have hlink := List.getElem?_eq_getElem hlt
  refine ⟨_, hlink, ?_⟩
  rw [recordedLink, hi, hlink]
  rfl

theorem recordedLink_of_le {h : HashAlgorithm} {commits : List Commit} {i : Nat}
    (hi : commits.length ≤ i) : recordedLink h commits i = none := by
  rw [recordedLink, List.getElem?_eq_none hi]
  rfl

/-- After any submissions the head is that of the replay of all raw bytes that
were committed to, and the links are those of the replay at the indices of
blocks, as long as no number is used twice. Errors change nothing, and once active
only errors are not committed. -/
theorem chain_after_run (crypto : CryptoProvider) (config : Config) (inputs : List Submission) :
    let v := (Validator.empty crypto config).runFrom inputs
    let commits := (Validator.empty crypto config).commitsFrom inputs
    v.blockCount = UInt64.ofNat commits.length ∧
    (commits.length < 2 ^ 64 → v.blockCount.toNat = commits.length ∧
      ∀ i, v.blockCount ≤ i → v.links[i]? = none) ∧
    (v.active = none → commits = []) ∧
    (∀ a, v.active = some a →
      let links := Chain.replay a.hasher (commits.map Commit.raw)
      crypto.hashNamed a.state.policy.hashingAlgorithm = .ok a.hasher ∧
      links.getLast? = some ⟨a.state.headBlockHash, a.state.headLinkHash⟩ ∧
      (commits.length < 2 ^ 64 → ∀ (i : Nat) (commit : Commit), commits[i]? = some commit →
        ∃ link, links[i]? = some link ∧ v.links[UInt64.ofNat i]? =
          if commit.block.isSome then some link.linkHash else none)) ∧
    (∀ x e, (v.receive x).1 = .error e → (v.receive x).2 = v) ∧
    (v.active.isSome = true → ∀ x report, (v.receive x).1 = .ok report →
      report.state.isSome = true) := by
  intro v commits
  have hlinked : v.Linked commits := Validator.linked_run crypto config inputs
  have hcrypto : v.crypto = crypto := Validator.crypto_runFrom _ inputs
  have hcount : v.blockCount = UInt64.ofNat commits.length := hlinked.blockCount_eq
  refine ⟨hcount, fun hroom => ?_, fun hnone => (hlinked.inactive hnone).1, ?_,
    fun _ _ => Validator.receive_error, ?_⟩
  · have hnumber : v.blockCount.toNat = commits.length := (eq_ofNat_iff hroom).mp hcount
    refine ⟨hnumber, fun i hi => ?_⟩
    cases hactive : v.active with
    | none => rw [(hlinked.inactive hactive).2, Std.ExtTreeMap.getElem?_empty]
    | some a =>
      have hpast : commits.length ≤ i.toNat := hnumber ▸ UInt64.le_iff_toNat_le.mp hi
      rw [(hlinked.active hactive).2.links (Nat.le_of_lt hroom), recordedLink_of_le hpast]
  · intro a hactive
    obtain ⟨hhash, hrecords⟩ := hlinked.active hactive
    refine ⟨hcrypto ▸ hhash, hrecords.head, ?_⟩
    intro hroom i commit hi
    have hlt : i < commits.length := (List.getElem?_eq_some_iff.mp hi).1
    rw [hrecords.links (Nat.le_of_lt hroom), UInt64.toNat_ofNat_of_lt' (Nat.lt_trans hlt hroom)]
    exact recordedLink_of_lt hi
  · intro hsome x report
    obtain ⟨a, hactive⟩ := Option.isSome_iff_exists.mp hsome
    exact Validator.receive_ok hactive

end TamperEvident
