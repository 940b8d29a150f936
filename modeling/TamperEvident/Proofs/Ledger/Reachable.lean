import TamperEvident.Proofs.Ledger.Diagnosis
import TamperEvident.Proofs.Ledger.LinkedChain
import TamperEvident.Proofs.Table

/-! Validators that were started empty or taken up from a state and tables, at any
point of what they are given, and the links in their tables. Links are recorded under
numbers of 64 bits that are given out in order. -/

namespace TamperEvident

theorem Table.le_maxEntry? {ν : Type} {t : Table UInt64 ν} {last : UInt64 × ν}
    (hlast : t.maxEntry? = some last) {i : UInt64} {v : ν} (hi : t[i]? = some v) : i ≤ last.1 := by
  rcases compare_maxEntry? hlast hi with rfl | hlt
  · exact UInt64.le_refl _
  · exact UInt64.le_of_lt (Std.compare_eq_lt.mp hlt)

theorem le_sub_one_iff {i n : UInt64} (hn : n ≠ 0) : i ≤ n - 1 ↔ i < n := by
  have hpos : 0 < n.toNat := UInt64.lt_iff_toNat_lt.mp (UInt64.pos_iff_ne_zero.mpr hn)
  have hone : (n - 1).toNat = n.toNat - 1 :=
    UInt64.toNat_sub_of_le n 1 (UInt64.le_iff_toNat_le.mpr hpos)
  rw [UInt64.le_iff_toNat_le, UInt64.lt_iff_toNat_lt, hone]
  omega

/-- The check of a table only looks at its last entry, which is enough for all. -/
theorem checkResumable_eq_ok {blockCount : UInt64} {headLink : Bytes} {links : LinkTable} :
    checkResumable blockCount headLink links = .ok () ↔
      links.contains 0 = true ∧ (∀ i link, links[i]? = some link → i < blockCount) ∧
        ∀ link, links[blockCount - 1]? = some link → link = headLink := by
  rw [checkResumable]
  constructor
  · intro h
    split at h
    · cases h
    split at h
    · cases h
    rename_i hcount hzero
    have hzero : links.contains 0 = true := by simpa using hzero
    cases hlast : links.maxEntry? with
    | none =>
      have hnone := Table.getElem?_of_maxEntry?_eq_none hlast
      exact ⟨hzero, fun i link hi => by simp [hnone] at hi, fun link hi => by simp [hnone] at hi⟩
    | some last =>
      obtain ⟨last, known⟩ := last
      simp only [hlast] at h
      split at h
      · cases h
      split at h
      · cases h
      rename_i hpast hdiffers
      have hlt : last < blockCount := (le_sub_one_iff hcount).mp (UInt64.not_lt.mp hpast)
      refine ⟨hzero, ?_, ?_⟩
      · intro i link hi
        exact UInt64.lt_of_le_of_lt (Table.le_maxEntry? hlast hi) hlt
      · intro link hi
        have hle : blockCount - 1 ≤ last := Table.le_maxEntry? hlast hi
        obtain rfl : last = blockCount - 1 := UInt64.le_antisymm ((le_sub_one_iff hcount).mpr hlt) hle
        rw [Table.getElem?_of_maxEntry? hlast] at hi
        by_contra hne
        exact hdiffers ⟨rfl, fun heq => hne ((Option.some.inj hi).symm.trans heq)⟩
  · rintro ⟨hzero, hbelow, hhead⟩
    obtain ⟨first, hfirst⟩ := Option.isSome_iff_exists.mp
      (Std.ExtTreeMap.contains_eq_isSome_getElem?.symm.trans hzero)
    have hcount : blockCount ≠ 0 := UInt64.pos_iff_ne_zero.mp (hbelow 0 first hfirst)
    rw [if_neg hcount, if_neg (by rw [hzero]; decide)]
    cases hlast : links.maxEntry? with
    | none => rfl
    | some last =>
      obtain ⟨last, known⟩ := last
      have hknown := Table.getElem?_of_maxEntry? hlast
      have hlt := hbelow last known hknown
      simp only
      rw [if_neg (UInt64.not_lt.mpr ((le_sub_one_iff hcount).mpr hlt)), if_neg]
      rintro ⟨rfl, hne⟩
      exact hne (hhead known hknown)

theorem ActiveLedger.of_eq_ok {crypto : CryptoProvider} {state : LedgerState} {a : ActiveLedger} :
    ActiveLedger.of crypto state = .ok a ↔ a.state = state ∧
      state.policy.algorithms crypto = .ok (a.hasher, a.signer) ∧
      state.policy.allowedShapes = .ok a.allowed := by
  rw [ActiveLedger.of, bind_eq_ok]
  constructor
  · rintro ⟨⟨hasher, signer⟩, halgorithms, h⟩
    obtain ⟨allowed, hallowed, h⟩ := bind_eq_ok.mp h
    obtain rfl := Except.ok.inj h
    exact ⟨rfl, mapError_eq_ok.mp halgorithms, mapError_eq_ok.mp hallowed⟩
  · rintro ⟨rfl, halgorithms, hallowed⟩
    refine ⟨_, mapError_eq_ok.mpr halgorithms, ?_⟩
    exact bind_eq_ok.mpr ⟨_, mapError_eq_ok.mpr hallowed, rfl⟩

namespace Validator

theorem resume_eq_ok {crypto : CryptoProvider} {config : Config} {state : LedgerState}
    {links : LinkTable} {authors : AuthorTable} {v : Validator} :
    resume crypto config state links authors = .ok v ↔
      checkResumable state.blockCount state.headLinkHash links = .ok () ∧
        ∃ a, ActiveLedger.of crypto state = .ok a ∧ v = ⟨crypto, config, some a, links, authors⟩ := by
  rw [resume, bind_eq_ok]
  constructor
  · rintro ⟨_, hcheck, h⟩
    obtain ⟨a, ha, h⟩ := bind_eq_ok.mp h
    exact ⟨mapError_eq_ok.mp hcheck, a, ha, (Except.ok.inj h).symm⟩
  · rintro ⟨hcheck, a, ha, rfl⟩
    exact ⟨(), mapError_eq_ok.mpr hcheck, bind_eq_ok.mpr ⟨a, ha, rfl⟩⟩

/-- How a validator comes to be what it is. Nothing bounds the number of blocks. -/
inductive Reachable (crypto : CryptoProvider) (config : Config) : Validator → Prop
  | empty : Reachable crypto config (Validator.empty crypto config)
  | resumed {state : LedgerState} {links : LinkTable} {authors : AuthorTable} {v : Validator}
      (h : resume crypto config state links authors = .ok v) : Reachable crypto config v
  | received {v : Validator} (h : Reachable crypto config v) (x : Submission) :
      Reachable crypto config (v.receive x).2

/-- Nothing is kept before a first block. Later what is kept beside the state is
what its policy gives. -/
structure Consistent (v : Validator) : Prop where
  blank : v.active = none → v.links = ∅ ∧ v.authors = ∅
  derived : ∀ a, v.active = some a → ActiveLedger.of v.crypto a.state = .ok a

variable {crypto : CryptoProvider} {config : Config} {v v' : Validator} {x : Submission}
  {answer : Except LedgerError Report}

theorem consistent_empty : (Validator.empty crypto config).Consistent where
  blank _ := ⟨rfl, rfl⟩
  derived a ha := by cases ha

theorem consistent_of_active {a : ActiveLedger} (hactive : v.active = some a)
    (hderived : ActiveLedger.of v.crypto a.state = .ok a) : v.Consistent := by
  refine ⟨?_, ?_⟩
  · intro hnone
    rw [hactive] at hnone
    cases hnone
  · intro a' ha'
    obtain rfl := Option.some.inj (hactive.symm.trans ha')
    exact hderived

theorem consistent_resumed {state : LedgerState} {links : LinkTable} {authors : AuthorTable}
    (h : resume crypto config state links authors = .ok v) : v.Consistent := by
  obtain ⟨_, a, ha, rfl⟩ := resume_eq_ok.mp h
  obtain rfl := (ActiveLedger.of_eq_ok.mp ha).1
  exact consistent_of_active rfl ha

theorem consistent_transition (ht : Transition v x answer v') (h : v.Consistent) :
    v'.Consistent := by
  cases ht with
  | unread => exact h
  | refused => exact h
  | amended => exact h
  | founded hactive hblock hpolicy halgorithms hallowed hauthors hstate =>
    subst hstate
    exact consistent_of_active rfl (ActiveLedger.of_eq_ok.mpr ⟨rfl, halgorithms, hallowed⟩)
  | malformed hactive hblock hnext =>
    subst hnext
    have hderived := ActiveLedger.of_eq_ok.mp (h.derived _ hactive)
    exact consistent_of_active rfl (ActiveLedger.of_eq_ok.mpr ⟨rfl, hderived.2⟩)
  | extended hactive hblock hcheck hnext =>
    subst hnext
    have hderived := ActiveLedger.of_eq_ok.mp (h.derived _ hactive)
    exact consistent_of_active rfl (ActiveLedger.of_eq_ok.mpr ⟨rfl, hderived.2⟩)

theorem Reachable.consistent (h : Reachable crypto config v) : v.Consistent := by
  induction h with
  | empty => exact consistent_empty
  | resumed h => exact consistent_resumed h
  | received h x ih => exact consistent_transition (transition_receive _ x) ih

theorem Reachable.crypto_eq (h : Reachable crypto config v) : v.crypto = crypto := by
  induction h with
  | empty => rfl
  | resumed h =>
    obtain ⟨_, a, _, rfl⟩ := resume_eq_ok.mp h
    rfl
  | received h x ih => exact (transition_receive _ x).crypto_eq.trans ih

theorem Reachable.config_eq (h : Reachable crypto config v) : v.config = config := by
  induction h with
  | empty => rfl
  | resumed h =>
    obtain ⟨_, a, _, rfl⟩ := resume_eq_ok.mp h
    rfl
  | received h x ih => exact (transition_receive _ x).config_eq.trans ih

theorem Reachable.algorithms (h : Reachable crypto config v) {a : ActiveLedger}
    (hactive : v.active = some a) :
    a.state.policy.algorithms crypto = .ok (a.hasher, a.signer) := by
  have hderived := ActiveLedger.of_eq_ok.mp (h.consistent.derived a hactive)
  rw [h.crypto_eq] at hderived
  exact hderived.2.1

theorem Reachable.runFrom (h : Reachable crypto config v) (inputs : List Submission) :
    Reachable crypto config (v.runFrom inputs) := by
  induction inputs generalizing v with
  | nil => exact h
  | cons x rest ih => exact ih (h.received x)

end Validator

end TamperEvident
