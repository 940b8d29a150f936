import TamperEvident.Proofs.Ledger.Audited
import TamperEvident.Proofs.Ledger.Reachable

/-! Which numbers blocks take, and what that does to the table of links. Numbers are
given out in order and start again after the last one, so an entry lasts until its
number is taken once more. -/

namespace TamperEvident

theorem toNat_add_ofNat {count : UInt64} {k : Nat} (h : count.toNat + k < 2 ^ 64) :
    (count + UInt64.ofNat k).toNat = count.toNat + k := by
  rw [UInt64.toNat_add, UInt64.toNat_ofNat_of_lt' (Nat.lt_of_le_of_lt (Nat.le_add_left _ _) h),
    Nat.mod_eq_of_lt h]

/-- Counted on from `count`, one of the commits has this number and is a block. The
others are counted too. -/
def NumberTaken (count : UInt64) (commits : List Commit) (i : UInt64) : Prop :=
  ∃ (k : Nat) (c : Commit), commits[k]? = some c ∧ c.block.isSome = true ∧
    i = count + UInt64.ofNat k

namespace NumberTaken

variable {count i : UInt64} {front back : List Commit}

theorem single {c : Commit} (hblock : c.block.isSome = true) : NumberTaken count [c] count :=
  ⟨0, c, rfl, hblock, (UInt64.add_zero count).symm⟩

theorem append_left (h : NumberTaken count front i) : NumberTaken count (front ++ back) i := by
  obtain ⟨k, c, hk, hblock, hi⟩ := h
  refine ⟨k, c, ?_, hblock, hi⟩
  rwa [List.getElem?_append_left (List.getElem?_eq_some_iff.mp hk).1]

theorem append_right (h : NumberTaken (count + UInt64.ofNat front.length) back i) :
    NumberTaken count (front ++ back) i := by
  obtain ⟨k, c, hk, hblock, rfl⟩ := h
  refine ⟨front.length + k, c, ?_, hblock, ?_⟩
  · rwa [List.getElem?_append_right (Nat.le_add_right _ _), Nat.add_sub_cancel_left]
  · rw [UInt64.ofNat_add, UInt64.add_assoc]

theorem toNat_eq (h : NumberTaken count front i) (hroom : count.toNat + front.length ≤ 2 ^ 64) :
    ∃ k < front.length, i.toNat = count.toNat + k := by
  obtain ⟨k, c, hk, _, rfl⟩ := h
  have hlt : k < front.length := (List.getElem?_eq_some_iff.mp hk).1
  exact ⟨k, hlt, toNat_add_ofNat (by omega)⟩

end NumberTaken

namespace Validator

variable {crypto : CryptoProvider} {config : Config} {s u v w : Validator} {x : Submission}
  {answer : Except LedgerError Report} {front back : List Commit}

/-- What a validator has numbered on its way from `v` to `w`, and no more than that
has changed in its table of links. -/
structure Numbers (v w : Validator) (commits : List Commit) : Prop where
  blockCount : w.blockCount = v.blockCount + UInt64.ofNat commits.length
  links : ∀ i, ¬ NumberTaken v.blockCount commits i → w.links[i]? = v.links[i]?

theorem Numbers.refl (v : Validator) : v.Numbers v [] where
  blockCount := (UInt64.add_zero _).symm
  links _ _ := rfl

theorem Numbers.trans (h : u.Numbers v front) (h' : v.Numbers w back) :
    u.Numbers w (front ++ back) := by
  refine ⟨?_, fun i hfree => ?_⟩
  · rw [h'.blockCount, h.blockCount, List.length_append, UInt64.ofNat_add, UInt64.add_assoc]
  · rw [h'.links i, h.links i]
    · exact fun htaken => hfree htaken.append_left
    · rw [h.blockCount]
      exact fun htaken => hfree htaken.append_right

theorem numbers_transition (ht : Transition v x answer w) :
    v.Numbers w (x.commit? v.config.maxBlockDepth answer).toList := by
  have hcount := fun state => ht.blockCount_eq (s := state)
  cases ht with
  | unread => exact .refl v
  | refused => exact .refl v
  | amended => exact .refl v
  | malformed hactive hblock hnext => exact ⟨(hcount _ rfl).2, fun _ _ => rfl⟩
  | founded hactive hblock =>
    obtain ⟨hindex, hcount⟩ := hcount _ rfl
    refine ⟨hcount, fun i hfree => ?_⟩
    rw [getElem?_insert_link, if_neg]
    rintro rfl
    rw [hindex, Submission.commit?_some, hblock] at hfree
    exact hfree (.single rfl)
  | extended hactive hblock =>
    obtain ⟨hindex, hcount⟩ := hcount _ rfl
    refine ⟨hcount, fun i hfree => ?_⟩
    rw [getElem?_insert_link, if_neg]
    rintro rfl
    rw [hindex, Submission.commit?_some, hblock] at hfree
    exact hfree (.single rfl)

theorem numbers_runFrom (v : Validator) (inputs : List Submission) :
    v.Numbers (v.runFrom inputs) (v.commitsFrom inputs) := by
  induction inputs generalizing v with
  | nil => exact .refl v
  | cons x rest ih => exact (numbers_transition (transition_receive v x)).trans (ih _)

/-- A block that is committed to puts its link under the number that it takes. -/
theorem Transition.getElem?_links (ht : Transition v x answer w) {state : LedgerState}
    (hstate : stateOf answer = some state)
    (hread : (x.block? v.config.maxBlockDepth).isSome = true) :
    w.links[v.blockCount]? = some state.headLinkHash := by
  have hindex := (ht.blockCount_eq hstate).1
  cases ht with
  | unread => cases hstate
  | refused => cases hstate
  | amended => cases hstate
  | malformed hactive hblock =>
    rw [hblock] at hread
    cases hread
  | founded =>
    obtain rfl := Option.some.inj hstate
    rw [getElem?_insert_link, if_pos hindex.symm]
  | extended =>
    obtain rfl := Option.some.inj hstate
    rw [getElem?_insert_link, if_pos hindex.symm]

/-- Where a run begins: without blocks, or with a state and tables that pass the checks. -/
inductive Started (crypto : CryptoProvider) (config : Config) : Validator → Prop
  | empty : Started crypto config (Validator.empty crypto config)
  | resumed {state : LedgerState} {links : LinkTable} {authors : AuthorTable} {s : Validator}
      (h : resume crypto config state links authors = .ok s) : Started crypto config s

theorem Started.reachable (h : Started crypto config s) : Reachable crypto config s := by
  cases h with
  | empty => exact .empty
  | resumed h => exact .resumed h

theorem Started.lt_blockCount (h : Started crypto config s) {i : UInt64} {link : Bytes}
    (hi : s.links[i]? = some link) : i < s.blockCount := by
  cases h with
  | empty => cases hi
  | resumed h =>
    obtain ⟨hcheck, a, ha, rfl⟩ := resume_eq_ok.mp h
    obtain ⟨_, hbelow, _⟩ := checkResumable_eq_ok.mp hcheck
    rw [blockCount, state?, Option.map_some, (ActiveLedger.of_eq_ok.mp ha).1]
    exact hbelow i link hi

/-- No number is taken twice on the way, counting the blocks there were at first. -/
def NumbersSuffice (s : Validator) (inputs : List Submission) : Prop :=
  s.blockCount.toNat + (s.commitsFrom inputs).length ≤ 2 ^ 64

variable {before later : List Submission} {i : UInt64} {link : Bytes}

theorem NumbersSuffice.of_append (h : s.NumbersSuffice (before ++ later)) :
    s.blockCount.toNat + (s.commitsFrom before).length +
      ((s.runFrom before).commitsFrom later).length ≤ 2 ^ 64 := by
  rwa [NumbersSuffice, commitsFrom_append, List.length_append, ← Nat.add_assoc] at h

/-- An entry is from the beginning, or it has a number that was taken since. -/
theorem Started.toNat_lt (hs : Started crypto config s) (hroom : s.NumbersSuffice before)
    (hi : (s.runFrom before).links[i]? = some link) :
    i.toNat < s.blockCount.toNat + (s.commitsFrom before).length := by
  by_cases htaken : NumberTaken s.blockCount (s.commitsFrom before) i
  · obtain ⟨k, hk, hnumber⟩ := htaken.toNat_eq hroom
    omega
  · rw [(numbers_runFrom s before).links i htaken] at hi
    have hlt := UInt64.lt_iff_toNat_lt.mp (hs.lt_blockCount hi)
    omega

/-- Numbers that are taken later are larger than those of all entries. -/
theorem Started.getElem?_links (hs : Started crypto config s)
    (hroom : s.NumbersSuffice (before ++ later))
    (hi : (s.runFrom before).links[i]? = some link) :
    ((s.runFrom before).runFrom later).links[i]? = some link := by
  have htotal := hroom.of_append
  have hlt : i.toNat < s.blockCount.toNat + (s.commitsFrom before).length :=
    hs.toNat_lt (Nat.le_trans (Nat.le_add_right _ _) htotal) hi
  rw [(numbers_runFrom _ later).links i, hi]
  rintro ⟨k, c, hk, _, hnumber⟩
  have hk : k < ((s.runFrom before).commitsFrom later).length := (List.getElem?_eq_some_iff.mp hk).1
  rw [(numbers_runFrom s before).blockCount, UInt64.add_assoc, ← UInt64.ofNat_add] at hnumber
  have hvalue : i.toNat = s.blockCount.toNat + ((s.commitsFrom before).length + k) := by
    rw [hnumber, toNat_add_ofNat (by omega)]
  omega

end Validator

end TamperEvident
