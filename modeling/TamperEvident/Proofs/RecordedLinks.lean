import TamperEvident.Proofs.Commitment

/-! Checking recorded links against the blocks they are said to link. The check names the
first place where the links do not fit, which for links of other blocks is the first
place where the blocks differ, unless two of the messages hashed on the way collide. -/

namespace TamperEvident

/-- The lists are the same up to place `i`, but not there. -/
structure FirstDifference {α : Type} (as bs : List α) (i : Nat) : Prop where
  before : as.take i = bs.take i
  there : as[i]? ≠ bs[i]?

namespace FirstDifference

variable {α : Type} {a b : α} {as bs : List α} {i : Nat}

theorem cons_of_ne (h : a ≠ b) : FirstDifference (a :: as) (b :: bs) i ↔ i = 0 := by
  constructor
  · rintro ⟨hbefore, _⟩
    cases i with
    | zero => rfl
    | succ i => exact absurd (List.cons.inj hbefore).1 h
  · rintro rfl
    exact ⟨rfl, fun heq => h (Option.some.inj heq)⟩

theorem cons_self :
    FirstDifference (a :: as) (a :: bs) i ↔ ∃ j, i = j + 1 ∧ FirstDifference as bs j := by
  constructor
  · rintro ⟨hbefore, hthere⟩
    cases i with
    | zero => exact absurd rfl hthere
    | succ j => exact ⟨j, rfl, (List.cons.inj hbefore).2, hthere⟩
  · rintro ⟨j, rfl, hbefore, hthere⟩
    exact ⟨congrArg (a :: ·) hbefore, hthere⟩

theorem not_self : ¬ FirstDifference as as i := fun h => h.there rfl

theorem exists_of_ne (h : as ≠ bs) : ∃ i, FirstDifference as bs i := by
  induction as generalizing bs with
  | nil =>
    cases bs with
    | nil => exact absurd rfl h
    | cons b bs => exact ⟨0, rfl, nofun⟩
  | cons a as ih =>
    cases bs with
    | nil => exact ⟨0, rfl, nofun⟩
    | cons b bs =>
      by_cases hab : a = b
      · subst hab
        obtain ⟨j, hj⟩ := ih fun heq => h (congrArg (a :: ·) heq)
        exact ⟨j + 1, cons_self.mpr ⟨j, rfl, hj⟩⟩
      · exact ⟨0, (cons_of_ne hab).mpr rfl⟩

end FirstDifference

namespace Chain

variable {h : HashAlgorithm} {as bs blocks recorded : List Bytes}

theorem compareLinks_eq_error {links : List ChainLink} (hlength : links.length = recorded.length)
    {start : Nat} {e : ChainError} :
    compareLinks start links recorded = .error e ↔
      ∃ i, FirstDifference (links.map ChainLink.linkHash) recorded i ∧
        e = .linkMismatch (start + i) := by
  induction links generalizing recorded start with
  | nil =>
    obtain rfl := List.eq_nil_of_length_eq_zero hlength.symm
    simp [compareLinks, FirstDifference.not_self]
  | cons link links ih =>
    cases recorded with
    | nil => cases hlength
    | cons claimed recorded =>
      rw [compareLinks, List.map_cons]
      by_cases hlink : link.linkHash = claimed
      · subst hlink
        rw [if_pos rfl, ih (Nat.succ.inj hlength)]
        simp only [FirstDifference.cons_self]
        constructor
        · rintro ⟨i, hi, rfl⟩
          exact ⟨i + 1, ⟨i, rfl, hi⟩, by rw [Nat.add_right_comm, Nat.add_assoc]⟩
        · rintro ⟨_, ⟨i, rfl, hi⟩, rfl⟩
          exact ⟨i, hi, by rw [Nat.add_right_comm, Nat.add_assoc]⟩
      · rw [if_neg hlink]
        simp only [FirstDifference.cons_of_ne hlink, exists_eq_left, Nat.add_zero,
          Except.error.injEq, eq_comm]

theorem verifyLinks_eq_error {e : ChainError} : verifyLinks h blocks recorded = .error e ↔
    (blocks.length ≠ recorded.length ∧ e = .lengthMismatch blocks.length recorded.length) ∨
    (blocks.length = recorded.length ∧ ∃ i, FirstDifference (linkHashes h blocks) recorded i ∧
      e = .linkMismatch i) := by
  have hreplay := length_replay h blocks
  rw [verifyLinks]
  by_cases hlength : blocks.length = recorded.length
  · rw [if_pos (hreplay.trans hlength), compareLinks_eq_error (hreplay.trans hlength)]
    simp only [Nat.zero_add, hlength, ne_eq, not_true, false_and, false_or, true_and, linkHashes]
  · rw [if_neg (by rwa [hreplay]), hreplay]
    simp only [hlength, ne_eq, not_false_eq_true, true_and, false_and, or_false, Except.error.injEq,
      eq_comm]

theorem verifyLinks_eq_ok :
    verifyLinks h blocks recorded = .ok () ↔ recorded = linkHashes h blocks := by
  constructor
  · intro hok
    by_contra hne
    have hfails : ∀ e, verifyLinks h blocks recorded ≠ .error e := fun e => by rw [hok]; nofun
    by_cases hlength : blocks.length = recorded.length
    · obtain ⟨i, hi⟩ := FirstDifference.exists_of_ne (Ne.symm hne)
      exact hfails _ (verifyLinks_eq_error.mpr (.inr ⟨hlength, i, hi, rfl⟩))
    · exact hfails _ (verifyLinks_eq_error.mpr (.inl ⟨hlength, rfl⟩))
  · rintro rfl
    cases hresult : verifyLinks h blocks (linkHashes h blocks) with
    | ok _ => rfl
    | error e =>
      rcases verifyLinks_eq_error.mp hresult with ⟨hlength, _⟩ | ⟨_, i, hi, _⟩
      · exact absurd (length_linkHashes h blocks).symm hlength
      · exact absurd hi FirstDifference.not_self

/-- Links before a tampered block are those that were recorded, and its own link is not: it would
have to be made from the same digest, and this from the same block. -/
theorem firstDifference_linkHashes {i : Nat} {messages : List Bytes}
    (hinj : Set.InjOn h.hash {m | m ∈ messages}) (has : Chain.messages h as ⊆ messages)
    (hbs : Chain.messages h bs ⊆ messages) (hlength : bs.length = as.length)
    (hi : FirstDifference bs as i) : FirstDifference (linkHashes h bs) (linkHashes h as) i := by
  have htake : ∀ blocks, (linkHashes h blocks).take i = linkHashes h (blocks.take i) := by
    intro blocks
    rw [linkHashes, ← List.map_take, replay, take_replayFrom]
    rfl
  refine ⟨by rw [htake, htake, hi.before], fun hlink => hi.there ?_⟩
  have hshort : i < bs.length := by
    by_contra hle
    have hnone : ∀ {blocks : List Bytes}, blocks.length = bs.length → blocks[i]? = none :=
      fun heq => List.getElem?_eq_none (by omega)
    exact hi.there (by rw [hnone rfl, hnone hlength.symm])
  have hlinks : (linkHashes h bs).take (i + 1) <+: linkHashes h as := by
    rw [List.take_add_one, hlink, htake, hi.before, ← htake, ← List.take_add_one]
    exact List.take_prefix _ _
  have hblocks := (take_eq_of_linkHashes hinj hbs has hshort hlinks).2
  rw [← List.getElem?_take_of_lt (Nat.lt_succ_self i), hblocks,
    List.getElem?_take_of_lt (Nat.lt_succ_self i)]

/-- Recorded links pass just when they are the links over the blocks. Otherwise there are too many
or too few of them, or the first one that is wrong is named. If they were recorded over other
blocks, this is where the first of the blocks was tampered with, or two messages collide among
those hashed for the two chains. -/
theorem tampering_is_located (h : HashAlgorithm) :
    (∀ bs recorded, verifyLinks h bs recorded = .ok () ↔ recorded = linkHashes h bs) ∧
    (∀ bs recorded e, verifyLinks h bs recorded = .error e ↔
      (bs.length ≠ recorded.length ∧ e = .lengthMismatch bs.length recorded.length) ∨
      (bs.length = recorded.length ∧ ∃ i, FirstDifference (linkHashes h bs) recorded i ∧
        e = .linkMismatch i)) ∧
    ∀ as bs : List Bytes,
      ((∃ m n, verifyLinks h bs (linkHashes h as) = .error (.lengthMismatch m n)) ↔
        bs.length ≠ as.length) ∧
      (bs = as → verifyLinks h bs (linkHashes h as) = .ok ()) ∧
      (bs.length = as.length → bs ≠ as → ∃ i, FirstDifference bs as i ∧
        (verifyLinks h bs (linkHashes h as) = .error (.linkMismatch i) ∨
          Collision h.hash (messages h as ++ messages h bs))) := by
  refine ⟨fun bs recorded => verifyLinks_eq_ok, fun bs recorded e => verifyLinks_eq_error,
    fun as bs => ⟨?_, ?_, fun hlength hne => ?_⟩⟩
  · simp [verifyLinks_eq_error, length_linkHashes]
  · rintro rfl
    exact verifyLinks_eq_ok.mpr rfl
  · obtain ⟨i, hi⟩ := FirstDifference.exists_of_ne hne
    refine ⟨i, hi, ?_⟩
    by_cases hcollision : Collision h.hash (messages h as ++ messages h bs)
    · exact .inr hcollision
    · have hlinks := firstDifference_linkHashes (injOn_of_not_collision hcollision)
        (List.subset_append_left _ _) (List.subset_append_right _ _) hlength hi
      have hcount : bs.length = (linkHashes h as).length := by rw [hlength, length_linkHashes]
      exact .inl (verifyLinks_eq_error.mpr (.inr ⟨hcount, i, hlinks, rfl⟩))

end Chain

namespace Sample

def weigh : HashAlgorithm :=
  ⟨"weighted sum", 1, fun message => [message.foldl (fun sum b => 3 * sum + b + 1) 0]⟩

end Sample

/-- The second of three blocks was replaced, and no two messages collide. -/
theorem tampering_is_located_second :
    Chain.verifyLinks Sample.weigh [[1], [4], [3]]
      (Chain.linkHashes Sample.weigh [[1], [2], [3]]) = .error (.linkMismatch 1) := by
  obtain ⟨_, _, htampered⟩ := Chain.tampering_is_located Sample.weigh
  obtain ⟨_, _, hlocated⟩ := htampered [[1], [2], [3]] [[1], [4], [3]]
  obtain ⟨i, hi, hresult⟩ := hlocated rfl (by decide)
  obtain ⟨j, rfl, hj⟩ := FirstDifference.cons_self.mp hi
  obtain rfl := (FirstDifference.cons_of_ne (by decide)).mp hj
  have hapart : ¬ Collision Sample.weigh.hash (Chain.messages Sample.weigh [[1], [2], [3]] ++
      Chain.messages Sample.weigh [[1], [4], [3]]) := by
    unfold Collision
    decide
  exact hresult.resolve_right hapart

end TamperEvident
