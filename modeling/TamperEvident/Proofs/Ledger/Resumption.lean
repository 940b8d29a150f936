import TamperEvident.Proofs.Ledger.Audited
import TamperEvident.Proofs.Ledger.Reachable
import TamperEvident.Proofs.Ledger.Snapshot.Binary

/-! A ledger that is taken up again from a snapshot goes on as if it had never
been put down. All that a validator keeps is either in its snapshot or follows
from the policy, and any state it reaches passes the checks on the way back. -/

namespace TamperEvident

/-- What is kept beside a state is what its policy gives, and the policy was read
from a payload. -/
structure ActiveLedger.FromPolicy (crypto : CryptoProvider) (a : ActiveLedger) : Prop where
  read : ∃ version payload, Policy.parse version payload = .ok a.state.policy
  algorithms : a.state.policy.algorithms crypto = .ok (a.hasher, a.signer)
  allowed : a.state.policy.allowedShapes = .ok a.allowed

namespace ActiveLedger

variable {crypto : CryptoProvider} {a : ActiveLedger} {links : LinkTable} {commits : List Commit}

theorem FromPolicy.of_eq (h : a.FromPolicy crypto) : ActiveLedger.of crypto a.state = .ok a :=
  of_eq_ok.mpr ⟨rfl, h.algorithms, h.allowed⟩

theorem FromPolicy.advance (h : a.FromPolicy crypto) {raw : Bytes} {update : Bool}
    {next : LedgerState} (hnext : a.state.advance a.hasher raw update = next) :
    ({ a with state := next } : ActiveLedger).FromPolicy crypto := by
  subst hnext
  exact ⟨h.read, h.algorithms, h.allowed⟩

theorem Records.lt_blockCount (h : a.Records links commits) (hroom : commits.length < 2 ^ 64)
    {i : UInt64} {link : Bytes} (hi : links[i]? = some link) : i < a.state.blockCount := by
  rw [h.links (Nat.le_of_lt hroom)] at hi
  rw [UInt64.lt_iff_toNat_lt, (eq_ofNat_iff hroom).mp h.count]
  by_contra hle
  rw [recordedLink_of_le (Nat.le_of_not_lt hle)] at hi
  cases hi

theorem Records.eq_headLink (h : a.Records links commits) (hroom : commits.length < 2 ^ 64)
    {link : Bytes} (hi : links[a.state.blockCount - 1]? = some link) :
    link = a.state.headLinkHash := by
  have hlast := h.head
  have hpos : 0 < commits.length := by
    by_contra hnone
    rw [List.length_eq_zero_iff.mp (Nat.eq_zero_of_not_pos hnone)] at hlast
    cases hlast
  have hindex : (a.state.blockCount - 1).toNat = commits.length - 1 :=
    (eq_ofNat_iff (by omega)).mp (h.headIndex_eq hpos)
  rw [List.getLast?_eq_getElem?, Chain.length_replay, List.length_map] at hlast
  rw [h.links (Nat.le_of_lt hroom), hindex, recordedLink, hlast] at hi
  simp only [bind, Option.bind_eq_some_iff] at hi
  obtain ⟨commit, _, _, hstate, hlink⟩ := hi
  obtain rfl := Option.some.inj hstate
  split at hlink
  · exact (Option.some.inj hlink).symm
  · cases hlink

theorem Records.checkResumable (h : a.Records links commits) (hroom : commits.length < 2 ^ 64)
    (hzero : links.contains 0 = true) :
    checkResumable a.state.blockCount a.state.headLinkHash links = .ok () :=
  checkResumable_eq_ok.mpr
    ⟨hzero, fun _ _ hi => h.lt_blockCount hroom hi, fun _ hi => h.eq_headLink hroom hi⟩

end ActiveLedger

namespace Snapshot

theorem linkTable_take (s : LedgerState) (links : LinkTable) (authors : AuthorTable) :
    (take s links authors).linkTable = links := by
  have hmap : ((take s links authors).knownLinks.map fun l => (l.index, l.linkHash)) =
      links.toList := by
    rw [take, List.map_map]
    exact List.map_id _
  rw [linkTable, hmap, Table.ofEntries_toList]

theorem authorTable_take (s : LedgerState) (links : LinkTable) (authors : AuthorTable) :
    (take s links authors).authorTable = authors := by
  have hmap : ((take s links authors).knownAuthors.map fun a => (a.id, a.publicKey)) =
      authors.toList := by
    rw [take, List.map_map]
    exact List.map_id _
  rw [authorTable, hmap, Table.ofEntries_toList]

theorem state_take {s : LedgerState} (links : LinkTable) (authors : AuthorTable)
    (hread : ∃ version payload, Policy.parse version payload = .ok s.policy)
    (hfree : s.policy.applicationData.value.FloatFree) :
    (take s links authors).state = .ok s := by
  obtain ⟨version, payload, hparse⟩ := hread
  rw [state, take]
  simp only [Policy.parse_payload_of_parse hparse hfree]
  rfl

end Snapshot

namespace Validator

/-- What makes an active validator one that can be resumed, besides its chain. -/
def Resumable (v : Validator) : Prop :=
  ∀ a, v.active = some a → a.FromPolicy v.crypto ∧ v.links.contains 0 = true

theorem resumable_transition {v v' : Validator} {x : Submission}
    {answer : Except LedgerError Report} (ht : Transition v x answer v') (h : v.Resumable) :
    v'.Resumable := by
  cases ht with
  | unread => exact h
  | refused => exact h
  | amended => exact h
  | founded hactive hblock hpolicy halgorithms hallowed hauthors hstate =>
    subst hstate
    intro a ha
    obtain rfl := Option.some.inj ha
    refine ⟨⟨⟨_, _, hpolicy⟩, halgorithms, hallowed⟩, ?_⟩
    rw [LedgerState.headIndex_genesis]
    exact Std.ExtTreeMap.contains_insert_self
  | malformed hactive hblock hnext =>
    intro a' ha'
    obtain rfl := Option.some.inj ha'
    obtain ⟨hpolicy, hzero⟩ := h _ hactive
    exact ⟨hpolicy.advance hnext, hzero⟩
  | extended hactive hblock hcheck hnext =>
    intro a' ha'
    obtain rfl := Option.some.inj ha'
    obtain ⟨hpolicy, hzero⟩ := h _ hactive
    refine ⟨hpolicy.advance hnext, ?_⟩
    rw [Std.ExtTreeMap.contains_insert, hzero, Bool.or_true]

theorem resumable_run (crypto : CryptoProvider) (config : Config) (inputs : List Submission) :
    ((Validator.empty crypto config).runFrom inputs).Resumable := by
  have h0 : (Validator.empty crypto config).Resumable := fun a ha => by cases ha
  exact @run_induction (fun v _ => v.Resumable) (fun _ _ _ _ _ => resumable_transition) _ [] h0
    inputs

theorem ofSnapshot_take {v : Validator} {a : ActiveLedger} {commits : List Commit}
    (hactive : v.active = some a) (hlinked : v.Linked commits) (hresumable : v.Resumable)
    (hfree : a.state.policy.applicationData.value.FloatFree) (hroom : commits.length < 2 ^ 64) :
    ofSnapshot v.crypto v.config (.take a.state v.links v.authors) = .ok v := by
  obtain ⟨hpolicy, hzero⟩ := hresumable a hactive
  have hrecords := (hlinked.active hactive).2
  have hback : resume v.crypto v.config a.state v.links v.authors = .ok v := by
    refine resume_eq_ok.mpr ⟨hrecords.checkResumable hroom hzero, a, hpolicy.of_eq, ?_⟩
    rw [← hactive]
  rw [ofSnapshot, Snapshot.state_take _ _ hpolicy.read hfree, Snapshot.linkTable_take,
    Snapshot.authorTable_take]
  exact hback

end Validator

theorem Snapshot.ofBytes_take {a : ActiveLedger} {links : LinkTable} {commits : List Commit}
    (authors : AuthorTable) (h : a.Records links commits) (hzero : links.contains 0 = true)
    (hroom : commits.length < 2 ^ 64)
    (hsize : (take a.state links authors).toBytes.length < 2 ^ 64) :
    ofBytes (take a.state links authors).toBytes = .ok (take a.state links authors) := by
  have hread := readsBack_toBytes hsize []
  have hcheck : checkResumable (take a.state links authors).blockCount
      (take a.state links authors).headLinkHash links = .ok () := h.checkResumable hroom hzero
  rw [List.append_nil] at hread
  rw [ofBytes, hread]
  simp only [linkTable_take, hcheck]

/-- At any point of a run the snapshot of an active validator is there, it is read
back from its bytes, and the validator that is made from it gives the same answers
to whatever follows and ends with the same state and tables. The policy has no
doubles in it; both bounds are those of the numbers and lengths in a snapshot. -/
theorem resumed_after_run {crypto : CryptoProvider} {config : Config} {inputs : List Submission}
    {a : ActiveLedger} (hactive : ((Validator.empty crypto config).runFrom inputs).active = some a)
    (hfree : a.state.policy.applicationData.value.FloatFree)
    (hroom : ((Validator.empty crypto config).commitsFrom inputs).length < 2 ^ 64) :
    let v := (Validator.empty crypto config).runFrom inputs
    ∃ s w, v.snapshot? = some s ∧
      (s.toBytes.length < 2 ^ 64 → Snapshot.ofBytes s.toBytes = .ok s) ∧
      Validator.ofSnapshot crypto config s = .ok w ∧
      ∀ further, w.answersFrom further = v.answersFrom further ∧
        (w.runFrom further).state? = (v.runFrom further).state? ∧
        (w.runFrom further).links = (v.runFrom further).links ∧
        (w.runFrom further).authors = (v.runFrom further).authors := by
  intro v
  have hlinked : v.Linked _ := Validator.linked_run crypto config inputs
  have hresumable : v.Resumable := Validator.resumable_run crypto config inputs
  have hback := Validator.ofSnapshot_take hactive hlinked hresumable hfree hroom
  rw [show v.crypto = crypto from Validator.crypto_runFrom _ inputs,
    show v.config = config from Validator.config_runFrom _ inputs] at hback
  refine ⟨.take a.state v.links v.authors, v, ?_, ?_, hback, fun further => ⟨rfl, rfl, rfl, rfl⟩⟩
  · rw [Validator.snapshot?, Validator.state?, hactive]
    rfl
  · exact Snapshot.ofBytes_take v.authors (hlinked.active hactive).2 (hresumable a hactive).2 hroom

namespace Sample

theorem run_submissions : ∃ allowed, (Validator.empty provider {}).runFrom submissions =
    ⟨provider, {}, some ⟨genesis.advance checksum [0] false, checksum, stamp, allowed⟩,
      (∅ : LinkTable).insert 0 genesis.headLinkHash,
      (∅ : AuthorTable).insert (checksum.hash [1]) [1]⟩ := by
  obtain ⟨allowed, hfounding⟩ := receive_founding
  refine ⟨allowed, ?_⟩
  rw [submissions, Validator.runFrom_cons, hfounding, Validator.runFrom_cons, receive_junk,
    Validator.runFrom_cons, receive_founding_again, Validator.runFrom_nil]
  rfl

theorem snapshot_submissions :
    ∃ s, ((Validator.empty provider {}).runFrom submissions).snapshot? = some s ∧
      s.toBytes.length < 2 ^ 64 := by
  obtain ⟨allowed, hrun⟩ := run_submissions
  have hpayload : policy.payload.length < 1000 := by decide +kernel
  -- Every digest is one byte.
  have hblock : (genesis.advance checksum [0] false).headBlockHash.length = 1 := rfl
  have hlink : (genesis.advance checksum [0] false).headLinkHash.length = 1 := rfl
  have hcontext : (genesis.advance checksum [0] false).contextLinkHash.length = 1 := rfl
  have hfirst : genesis.headLinkHash.length = 1 := rfl
  have hauthor : (checksum.hash [1]).length = 1 := rfl
  have hpolicy : (genesis.advance checksum [0] false).policy.payload.length < 1000 := hpayload
  rw [hrun]
  refine ⟨_, rfl, ?_⟩
  rw [Snapshot.length_toBytes]
  simp only [Snapshot.take, Table.toList_insert_empty, List.map_cons, List.map_nil,
    List.flatMap_singleton, Snapshot.length_writeLink, Snapshot.length_writeAuthor]
  rw [hblock, hlink, hcontext, hfirst, hauthor, List.length_singleton]
  omega

end Sample

/-- With a head that is no block, and a continuation that has one more. -/
theorem resumed_after_malformed : ∃ s w,
    ((Validator.empty Sample.provider {}).runFrom Sample.submissions).snapshot? = some s ∧
    Snapshot.ofBytes s.toBytes = .ok s ∧ Validator.ofSnapshot Sample.provider {} s = .ok w ∧
    w.answersFrom Sample.submissions =
      ((Validator.empty Sample.provider {}).runFrom Sample.submissions).answersFrom
        Sample.submissions := by
  obtain ⟨allowed, hrun⟩ := Sample.run_submissions
  obtain ⟨s', hs', hsize⟩ := Sample.snapshot_submissions
  obtain ⟨s, w, hs, hbytes, hw, hfurther⟩ :=
    resumed_after_run (congrArg Validator.active hrun) ⟨trivial, trivial⟩
      (Nat.lt_of_le_of_lt (Validator.length_commitsFrom_le _ Sample.submissions) (by decide))
  obtain rfl := Option.some.inj (hs.symm.trans hs')
  exact ⟨s, w, hs, hbytes hsize, hw, (hfurther Sample.submissions).1⟩

end TamperEvident
