import TamperEvident.Proofs.Ledger.Reachable
import TamperEvident.Proofs.Ledger.Replica
import TamperEvident.Proofs.Merkle.Settled

/-! What a call that fails leaves behind. The validator takes a block before the tree takes its
leaf, so a tree that cannot take the leaf is left a block behind the validator. -/

namespace TamperEvident

theorem add_one_ne_self (n : UInt64) : n + 1 ≠ n :=
  fun h => absurd (UInt64.add_eq_left.mp h) (by decide)

namespace Validator

variable {v v' : Validator} {x : Submission}

theorem Transition.eq_of_stateless {report : Report} (h : Transition v x (.ok report) v')
    (hnone : report.state = none) : v' = v := by
  cases h with
  | unread => rfl
  | refused => rfl
  | founded => cases hnone
  | malformed => cases hnone
  | extended => cases hnone

end Validator

namespace AuditedLedger

/-- The ways a call can go. In the last one the validator goes on and the tree does not. -/
inductive Received (l : AuditedLedger) (x : Submission) :
    Except LedgerError AuditedReport → AuditedLedger → Prop
  | outOfSync (hsync : l.leafCount ≠ l.validator.blockCount) :
      Received l x (.error (.auditOutOfSync l.leafCount l.validator.blockCount)) l
  | refused {e : LedgerError} (hsync : l.leafCount = l.validator.blockCount)
      (hx : l.validator.receive x = (.error e, l.validator)) : Received l x (.error e) l
  | stateless {report : Report} (answer : AuditedReport)
      (hsync : l.leafCount = l.validator.blockCount)
      (hx : l.validator.receive x = (.ok report, l.validator)) (hnone : report.state = none) :
      Received l x (.ok answer) l
  | appended {report : Report} {v : Validator} {s : LedgerState}
      {completed : List (Node × Digest)} {tree : Tree Digest} (answer : AuditedReport)
      (hsync : l.leafCount = l.validator.blockCount)
      (hx : l.validator.receive x = (.ok report, v)) (hstate : report.state = some s)
      (hpush : l.tree.push Digest.combine (Digest.leaf s.headLinkHash) = .ok (completed, tree)) :
      Received l x (.ok answer) ⟨v, tree⟩
  | lost {report : Report} {v : Validator} {s : LedgerState} {m : MerkleError}
      (hsync : l.leafCount = l.validator.blockCount)
      (hx : l.validator.receive x = (.ok report, v)) (hstate : report.state = some s)
      (hpush : l.tree.push Digest.combine (Digest.leaf s.headLinkHash) = .error m) :
      Received l x (.error (.merkle m)) ⟨v, l.tree⟩

variable {l l' : AuditedLedger} {x : Submission} {answer : Except LedgerError AuditedReport}
  {e : LedgerError}

theorem receive_outOfSync (h : l.leafCount ≠ l.validator.blockCount) (x : Submission) :
    l.receive x = (.error (.auditOutOfSync l.leafCount l.validator.blockCount), l) := by
  rw [receive_eq, submitWith, checkSync, if_neg h]

theorem receive_of_ok {report : Report} {v : Validator}
    (hsync : l.leafCount = l.validator.blockCount)
    (hx : l.validator.receive x = (.ok report, v)) :
    l.receive x = (⟨v, l.tree⟩ : AuditedLedger).append report := by
  rw [receive_eq, submitWith, checkSync, if_pos hsync]
  simp only [hx]

theorem append_of_missed {report : Report} {s : LedgerState} {m : MerkleError}
    (hstate : report.state = some s) (hindex : s.headIndex = l.leafCount)
    (hpush : l.tree.push Digest.combine (Digest.leaf s.headLinkHash) = .error m) :
    l.append report = (.error (.merkle m), l) := by
  simp only [append, hstate, hindex, leafCount, if_true, hpush]

theorem received (l : AuditedLedger) (x : Submission) :
    Received l x (l.receive x).1 (l.receive x).2 := by
  by_cases hsync : l.leafCount = l.validator.blockCount
  · have ht := l.validator.transition_receive x
    obtain ⟨answer, v, hx⟩ : ∃ answer v, l.validator.receive x = (answer, v) := ⟨_, _, rfl⟩
    rw [hx] at ht
    cases answer with
    | error e =>
      have hkept : v = l.validator := by
        rw [← Validator.receive_error (congrArg Prod.fst hx), hx]
      subst hkept
      rw [receive_eq, submitWith, checkSync, if_pos hsync]
      simp only [hx]
      exact .refused hsync hx
    | ok report =>
      rw [receive_of_ok hsync hx]
      cases hstate : report.state with
      | none =>
        obtain rfl := ht.eq_of_stateless hstate
        simp only [append, hstate]
        exact .stateless _ hsync hx hstate
      | some s =>
        have hindex : s.headIndex = l.leafCount := by
          rw [hsync]
          exact (ht.blockCount_eq hstate).1
        cases hpush : l.tree.push Digest.combine (Digest.leaf s.headLinkHash) with
        | error m =>
          rw [append_of_missed (l := ⟨v, l.tree⟩) hstate hindex hpush]
          exact .lost hsync hx hstate hpush
        | ok grown =>
          simp only [append, hstate, hindex, leafCount, if_true, hpush]
          exact .appended _ hsync hx hstate hpush
  · rw [receive_outOfSync hsync]
    exact .outOfSync hsync

/-- The validator took a block whose leaf the tree could not take. -/
structure Loses (l : AuditedLedger) (x : Submission) (e : LedgerError) (l' : AuditedLedger) :
    Prop where
  leaf : ∃ s m, stateOf (l.validator.receive x).1 = some s ∧ e = .merkle m ∧
    l.tree.push Digest.combine (Digest.leaf s.headLinkHash) = .error m
  validator : l'.validator = (l.validator.receive x).2
  ahead : l'.validator.blockCount = l'.leafCount + 1
  /-- Whatever comes next is refused. -/
  stuck : ∀ y, l'.receive y =
    (.error (.auditOutOfSync l'.leafCount l'.validator.blockCount), l')

theorem Received.failed (h : Received l x (.error e) l') :
    l'.tree = l.tree ∧ (l' = l ∨ l.Loses x e l') := by
  cases h with
  | outOfSync => exact ⟨rfl, .inl rfl⟩
  | refused => exact ⟨rfl, .inl rfl⟩
  | @lost report v s m hsync hx hstate hpush =>
    have ht := l.validator.transition_receive x
    rw [hx] at ht
    have hahead : v.blockCount = l.leafCount + 1 := by
      rw [hsync]
      exact (ht.blockCount_eq hstate).2
    refine ⟨rfl, .inr ⟨⟨s, m, ?_, rfl, hpush⟩, ?_, hahead, ?_⟩⟩
    · rw [hx]
      exact hstate
    · rw [hx]
    · refine receive_outOfSync fun hsync => ?_
      exact add_one_ne_self _ (hahead.symm.trans hsync.symm)

theorem Received.settled (h : Received l x answer l') (ht : l.tree.Settled) :
    l'.tree.Settled ∧ ∀ e, answer = .error e → l' = l := by
  cases h with
  | outOfSync => exact ⟨ht, fun _ _ => rfl⟩
  | refused => exact ⟨ht, fun _ _ => rfl⟩
  | stateless => exact ⟨ht, fun _ _ => rfl⟩
  | @appended _ v s _ tree _ hsync hx hstate hpush =>
    obtain ⟨_, grown, hgrown, hsettled⟩ := ht.push Digest.combine (Digest.leaf s.headLinkHash)
    cases hpush.symm.trans hgrown
    exact ⟨hsettled, nofun⟩
  | @lost _ v s m hsync hx hstate hpush =>
    obtain ⟨_, _, hgrown, _⟩ := ht.push Digest.combine (Digest.leaf s.headLinkHash)
    cases hpush.symm.trans hgrown

theorem settled_runFrom (ht : l.tree.Settled) (inputs : List Submission) :
    (l.runFrom inputs).tree.Settled := by
  induction inputs generalizing l with
  | nil => exact ht
  | cons x inputs ih => exact ih ((l.received x).settled ht).1

def FailsClean (l : AuditedLedger) : Prop :=
  ∀ inputs x e l', (l.runFrom inputs).receive x = (.error e, l') → l' = l.runFrom inputs

theorem failsClean_of_settled (ht : l.tree.Settled) : l.FailsClean := by
  intro inputs x e l' hcall
  have hreceived := (l.runFrom inputs).received x
  rw [hcall] at hreceived
  exact (hreceived.settled (settled_runFrom ht inputs)).2 e rfl

theorem FailsClean.eq_of_error (h : l.FailsClean) (hcall : l.receive x = (.error e, l')) : l' = l :=
  h [] x e l' hcall

theorem FailsClean.receive (h : l.FailsClean) (x : Submission) : (l.receive x).2.FailsClean :=
  fun inputs => h (x :: inputs)

/-- A ledger that has a block and fails clean, beside a tree with as many leaves. -/
structure Steady (l : AuditedLedger) : Prop where
  clean : l.FailsClean
  active : l.validator.active ≠ none
  sync : l.leafCount = l.validator.blockCount

/-- Bytes that are no block are taken as the next one, so the tree is put to the test as often
as one likes. -/
theorem Steady.exists_push (h : l.Steady) : ∃ leaf completed, ∃ l' : AuditedLedger,
    l.tree.push Digest.combine leaf = .ok (completed, l'.tree) ∧ l'.Steady := by
  obtain ⟨hclean, hactive, hsync⟩ := h
  obtain ⟨a, ha⟩ := Option.ne_none_iff_exists'.mp hactive
  have hunread : (Submission.bytes []).block? l.validator.config.maxBlockDepth = none := by
    cases l.validator.config.maxBlockDepth <;> rfl
  have hjunk := Validator.receive_of_malformed ha hunread
  have ht := l.validator.transition_receive (.bytes [])
  have hreceived := l.received (.bytes [])
  have hnext := hclean.receive (.bytes [])
  obtain ⟨answer, l', hcall⟩ : ∃ answer l', l.receive (.bytes []) = (answer, l') := ⟨_, _, rfl⟩
  rw [hcall] at hreceived hnext
  dsimp only at hreceived hnext
  cases hreceived with
  | outOfSync hne => exact absurd hsync hne
  | refused _ hx => cases hx.symm.trans hjunk
  | stateless _ _ hx hnone =>
    have hsome := Validator.receive_ok ha (congrArg Prod.fst hx)
    simp [hnone] at hsome
  | appended _ _ hx hstate hpush =>
    rw [hx] at ht
    have hcount := (ht.blockCount_eq hstate).2
    cases hx.symm.trans hjunk
    refine ⟨_, _, _, hpush, hnext, nofun, ?_⟩
    rw [leafCount, count_push hpush, UInt64.ofNat_add, hcount, ← hsync]
    rfl
  | @lost report v s m _ hx hstate hpush =>
    -- The validator is a block further, so this is not the ledger as it was.
    have hkept : v = l.validator := congrArg AuditedLedger.validator (hclean.eq_of_error hcall)
    rw [hx] at ht
    have hcount : v.blockCount = l.validator.blockCount + 1 := (ht.blockCount_eq hstate).2
    rw [hkept] at hcount
    exact absurd hcount.symm (add_one_ne_self _)

theorem Steady.settled (h : l.Steady) : l.tree.Settled :=
  settled_of_pushes (fun _ => Steady.exists_push) h

theorem withHistory_eq_ok {v : Validator} {t : Tree Digest} :
    withHistory v t = .ok l ↔ l = ⟨v, t⟩ ∧ UInt64.ofNat t.count = v.blockCount := by
  rw [withHistory, map_eq_ok, checkSync]
  by_cases hsync : UInt64.ofNat t.count = v.blockCount
  · simp [leafCount, hsync, eq_comm]
  · simp [leafCount, hsync]

end AuditedLedger

/-- A call that fails never changes the tree. It changes the validator only if the tree cannot
take the leaf of the block that the validator has just taken, and then the ledger refuses
whatever comes. If the tree that was put beside the validator is settled, no call fails that
way. If it is not, some call on a ledger with a block does. -/
theorem failed_calls_change_nothing_iff_settled {v : Validator} {t : Tree Digest}
    {l : AuditedLedger} (hl : AuditedLedger.withHistory v t = .ok l) :
    (∀ inputs x e l', (l.runFrom inputs).receive x = (.error e, l') →
      l'.tree = (l.runFrom inputs).tree ∧
        (l' = l.runFrom inputs ∨ (l.runFrom inputs).Loses x e l')) ∧
    (t.Settled → l.FailsClean) ∧
    (v.active ≠ none → l.FailsClean → t.Settled) := by
  obtain ⟨rfl, hsync⟩ := AuditedLedger.withHistory_eq_ok.mp hl
  refine ⟨?_, ?_, ?_⟩
  · intro inputs x e l' hcall
    have hreceived := AuditedLedger.received (AuditedLedger.runFrom ⟨v, t⟩ inputs) x
    rw [hcall] at hreceived
    exact hreceived.failed
  · intro ht
    exact AuditedLedger.failsClean_of_settled ht
  · intro hactive h
    exact AuditedLedger.Steady.settled ⟨h, hactive, hsync⟩

namespace Sample

def founded : Validator := (Validator.empty provider {}).runFrom [.block founding]

def firstLeaf : Digest := .leaf genesis.headLinkHash

theorem reachable_founded : Validator.Reachable provider {} founded :=
  Validator.Reachable.runFrom .empty [.block founding]

theorem exists_founded_eq : ∃ a links authors,
    founded = ⟨provider, {}, some a, links, authors⟩ ∧ a.state = genesis := by
  obtain ⟨allowed, hfounding⟩ := receive_founding
  rw [founded, Validator.runFrom_cons, hfounding]
  exact ⟨_, _, _, rfl, rfl⟩

theorem blockCount_founded : founded.blockCount = 1 := by
  obtain ⟨a, links, authors, hfounded, ha⟩ := exists_founded_eq
  rw [hfounded, Validator.blockCount, Validator.state?, Option.map_some, ha]
  rfl

theorem receive_second : ∃ s v,
    founded.receive (.bytes [0]) = (.ok ⟨some s, none, [.malformedBlock]⟩, v) ∧
      s.headIndex = 1 ∧ v.blockCount = 2 := by
  obtain ⟨a, links, authors, hfounded, ha⟩ := exists_founded_eq
  rw [hfounded, receive_junk]
  refine ⟨_, _, rfl, ?_, ?_⟩
  · rw [ha, LedgerState.headIndex_advance]
    rfl
  · rw [Validator.blockCount, Validator.state?, Option.map_some, ha]
    rfl

end Sample

theorem failed_calls_after_pushed_leaf :
    ∃ l, AuditedLedger.withHistory Sample.founded (treeOf Digest.combine [Sample.firstLeaf]) =
      .ok l ∧ l.FailsClean := by
  have hcount : (treeOf Digest.combine [Sample.firstLeaf]).count = 1 := count_treeOf _
  have hl := AuditedLedger.withHistory_eq_ok.mpr
    ⟨rfl, (congrArg UInt64.ofNat hcount).trans Sample.blockCount_founded.symm⟩
  exact ⟨_, hl, (failed_calls_change_nothing_iff_settled hl).2.1 (settled_treeOf _)⟩

/-- The first leaf is there, but it was not pushed. The validator takes the second block, and
the tree does not take its leaf. -/
theorem inserted_leaf_leaves_validator_ahead :
    let t : Tree Digest := ⟨[#[Sample.firstLeaf]], []⟩
    Validator.Reachable Sample.provider {} Sample.founded ∧ InPlace.Reachable Digest.combine t ∧
      ∃ l, AuditedLedger.withHistory Sample.founded t = .ok l ∧ ∃ l',
        l.receive (.bytes [0]) = (.error (.merkle (.frontierSize 1 0)), l') ∧
        l.validator.blockCount = 1 ∧ l'.validator.blockCount = 2 ∧ l'.tree = l.tree ∧
        ¬ l.FailsClean := by
  intro t
  have hreach : InPlace.Reachable Digest.combine t := InPlace.reachable_inserted _ Sample.firstLeaf
  have hl : AuditedLedger.withHistory Sample.founded t = .ok ⟨Sample.founded, t⟩ :=
    AuditedLedger.withHistory_eq_ok.mpr ⟨rfl, Sample.blockCount_founded.symm⟩
  have hpush : ∀ leaf, t.push Digest.combine leaf = .error (.frontierSize 1 0) := by
    intro leaf
    simp [t, Tree.push, Tree.count, Frontier.append, popCount, bind, Except.bind]
  obtain ⟨s, v, hsecond, hindex, hcount⟩ := Sample.receive_second
  have hcall : (⟨Sample.founded, t⟩ : AuditedLedger).receive (.bytes [0]) =
      (.error (.merkle (.frontierSize 1 0)), ⟨v, t⟩) := by
    rw [AuditedLedger.receive_of_ok (l := ⟨Sample.founded, t⟩) Sample.blockCount_founded.symm
      hsecond]
    exact AuditedLedger.append_of_missed (l := ⟨v, t⟩) rfl hindex (hpush _)
  refine ⟨Sample.reachable_founded, hreach, _, hl, _, hcall, Sample.blockCount_founded, hcount,
    rfl, ?_⟩
  intro hclean
  have hkept : v = Sample.founded := congrArg AuditedLedger.validator (hclean.eq_of_error hcall)
  rw [hkept, Sample.blockCount_founded] at hcount
  exact absurd hcount (by decide)

end TamperEvident
