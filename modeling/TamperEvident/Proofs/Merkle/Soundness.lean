import Mathlib.Algebra.Free
import TamperEvident.Proofs.Merkle.Appended
import TamperEvident.Proofs.Merkle.Binding

/-! Proofs of any origin that are accepted against the roots of two lists, or of
one. The last step is taken off first: a join that ends in a root is the join at
the cut of the list, so the other steps lead to the root of one of its parts. -/

namespace TamperEvident

variable {α : Type} {combine : α → α → α}

theorem isPrefix_of_folds (hinj : Function.Injective2 combine) {as bs : List α}
    (ha : ∀ x ∈ as, Unjoined combine x) (hb : ∀ x ∈ bs, Unjoined combine x)
    (first : α) (steps : List (Step α))
    (hold : listRoot combine as =
      some ((steps.filter (·.onLeft)).foldl (Step.apply combine) first))
    (hnew : listRoot combine bs = some (steps.foldl (Step.apply combine) first)) :
    as <+: bs :=
  isPrefix_of_foldsWithin (injectiveWithin_true hinj) (apart_of_unjoined ha)
    (apart_of_unjoined hb) first steps (foldWithin_true _ _) (foldWithin_true _ _)
    (rootWithin_of_listRoot hold) (rootWithin_of_listRoot hnew)

/-- From the root of a list of `count` leaves down to leaf `i`, at each cut
whether it is in the right part. -/
def leafPath (count i : Nat) : List Bool :=
  if count ≤ 1 then []
  else if i < splitPoint count then false :: leafPath (splitPoint count) i
  else true :: leafPath (count - splitPoint count) (i - splitPoint count)
termination_by count
decreasing_by
  all_goals
    have := splitPoint_pos count
    have := splitPoint_lt (by omega : 2 ≤ count)
    omega

theorem leafPath_one (i : Nat) : leafPath 1 i = [] := by
  rw [leafPath, if_pos le_rfl]

theorem leafPath_left {as bs : List α} (hbs : bs ≠ [])
    (hcut : as.length = splitPoint (as ++ bs).length) {i : Nat} (hi : i < as.length) :
    leafPath (as ++ bs).length i = false :: leafPath as.length i := by
  have hb := List.length_pos_iff.mpr hbs
  have hlen : (as ++ bs).length = as.length + bs.length := List.length_append
  rw [leafPath, if_neg (by omega), ← hcut, if_pos hi]

theorem leafPath_right {as bs : List α} (has : as ≠ []) (hbs : bs ≠ [])
    (hcut : as.length = splitPoint (as ++ bs).length) (i : Nat) :
    leafPath (as ++ bs).length (as.length + i) = true :: leafPath bs.length i := by
  have ha := List.length_pos_iff.mpr has
  have hb := List.length_pos_iff.mpr hbs
  have hlen : (as ++ bs).length = as.length + bs.length := List.length_append
  rw [leafPath, if_neg (by omega), ← hcut, if_neg (by omega), hlen, Nat.add_sub_cancel_left,
    Nat.add_sub_cancel_left]

/-- Steps that lead from a leaf to the root of a list start at one of its leaves
and stand on the left where its path turns right. -/
theorem getElem?_of_fold (hinj : Function.Injective2 combine) {leaves : List α} {leaf : α}
    (hu : ∀ x ∈ leaves, Unjoined combine x) (hleaf : Unjoined combine leaf)
    (steps : List (Step α))
    (hroot : listRoot combine leaves = some (steps.foldl (Step.apply combine) leaf)) :
    ∃ i, leaves[i]? = some leaf ∧ (steps.map (·.onLeft)).reverse = leafPath leaves.length i := by
  induction steps using List.reverseRecOn generalizing leaves with
  | nil =>
    obtain rfl := eq_singleton_of_listRoot hroot hleaf
    exact ⟨0, rfl, (leafPath_one 0).symm⟩
  | append_singleton steps last ih =>
    rw [foldl_apply_concat] at hroot
    rw [List.map_append, List.map_singleton, List.reverse_append, List.reverse_singleton,
      List.singleton_append]
    cases hside : last.onLeft with
    | true =>
      rw [if_pos hside] at hroot
      obtain ⟨as, bs, rfl, hcut, hl, hr⟩ := cut_of_listRoot hinj hu hroot
      obtain ⟨i, hi, hpath⟩ := ih (unjoined_append hu).2 hr
      refine ⟨as.length + i, ?_, ?_⟩
      · rw [List.getElem?_append_right (Nat.le_add_right _ _), Nat.add_sub_cancel_left, hi]
      · rw [leafPath_right (ne_nil_of_listRoot hl) (ne_nil_of_listRoot hr) hcut, hpath]
    | false =>
      rw [if_neg (by simp [hside])] at hroot
      obtain ⟨as, bs, rfl, hcut, hl, hr⟩ := cut_of_listRoot hinj hu hroot
      obtain ⟨i, hi, hpath⟩ := ih (unjoined_append hu).1 hl
      have hlt : i < as.length := (List.getElem?_eq_some_iff.mp hi).1
      refine ⟨i, ?_, ?_⟩
      · rw [List.getElem?_append_left hlt, hi]
      · rw [leafPath_left (ne_nil_of_listRoot hr) hcut hlt, hpath]

theorem root_ofLeaves {leaves : List α} {t : Tree α} (h : Tree.ofLeaves combine leaves = .ok t) :
    t.root combine = listRoot combine leaves := by
  rw [ofLeaves_eq] at h
  obtain rfl := Except.ok.inj h
  exact root_treeOf leaves

/-- Words, whose joins can be told from letters and taken apart again. -/
theorem mul_injective2 : Function.Injective2 (fun a b : FreeMagma Nat => a * b) := by
  intro a a' b b' h
  injection h with hl hr
  exact ⟨hl, hr⟩

theorem unjoined_letters (l : List Nat) :
    ∀ x ∈ l.map FreeMagma.of, Unjoined (fun a b : FreeMagma Nat => a * b) x := by
  intro x hx a b h
  obtain ⟨n, _, rfl⟩ := List.mem_map.mp hx
  injection h

theorem root_letters (l : List Nat) :
    (treeOf (fun a b : FreeMagma Nat => a * b) (l.map .of)).root (fun a b => a * b) =
      listRoot (fun a b => a * b) (l.map .of) := root_ofLeaves (ofLeaves_eq _)

variable [DecidableEq α]

/-- Whatever the steps are, they show the root of a list to be older than the
root of another only if the list is a prefix of the other. -/
theorem isPrefix_of_consistencyHolds (hinj : Function.Injective2 combine) {as bs : List α}
    (ha : ∀ x ∈ as, Unjoined combine x) (hb : ∀ x ∈ bs, Unjoined combine x) {s t : Tree α}
    (hs : Tree.ofLeaves combine as = .ok s) (ht : Tree.ofLeaves combine bs = .ok t)
    {old new : α} (hold : s.root combine = some old) (hnew : t.root combine = some new)
    (steps : List (Step α)) (h : consistencyHolds combine old new steps = true) : as <+: bs := by
  rw [root_ofLeaves hs] at hold
  rw [root_ofLeaves ht] at hnew
  cases steps with
  | nil => simp [consistencyHolds] at h
  | cons first rest =>
    simp only [consistencyHolds, Bool.and_eq_true, beq_iff_eq] at h
    obtain ⟨rfl, rfl⟩ := h
    exact isPrefix_of_folds hinj ha hb first.entry rest hold hnew

theorem isPrefix_three_five :
    consistencyHolds (fun a b : FreeMagma Nat => a * b) (.of 0 * .of 1 * .of 2)
        (.of 0 * .of 1 * (.of 2 * .of 3) * .of 4)
        [⟨true, .of 2⟩, ⟨false, .of 3⟩, ⟨true, .of 0 * .of 1⟩, ⟨false, .of 4⟩] = true ∧
      [0, 1, 2].map FreeMagma.of <+: [0, 1, 2, 3, 4].map FreeMagma.of := by
  have hsteps : consistencyHolds (fun a b : FreeMagma Nat => a * b) (.of 0 * .of 1 * .of 2)
      (.of 0 * .of 1 * (.of 2 * .of 3) * .of 4)
      [⟨true, .of 2⟩, ⟨false, .of 3⟩, ⟨true, .of 0 * .of 1⟩, ⟨false, .of 4⟩] = true := by decide
  have hold := root_letters [0, 1, 2]
  have hnew := root_letters [0, 1, 2, 3, 4]
  exact ⟨hsteps, isPrefix_of_consistencyHolds mul_injective2 (unjoined_letters _)
    (unjoined_letters _) (ofLeaves_eq _) (ofLeaves_eq _) (hold.trans (by decide +kernel))
    (hnew.trans (by decide +kernel)) _ hsteps⟩

/-- Whatever the steps are, they place a leaf under the root of a list only if
it is one of the list, at the place that the sides of the steps spell out. -/
theorem getElem?_of_inclusionHolds (hinj : Function.Injective2 combine) {leaves : List α}
    (hu : ∀ x ∈ leaves, Unjoined combine x) {t : Tree α}
    (ht : Tree.ofLeaves combine leaves = .ok t) {root : α} (hroot : t.root combine = some root)
    {leaf : α} (hleaf : Unjoined combine leaf) (steps : List (Step α))
    (h : inclusionHolds combine leaf root steps = true) :
    ∃ i, leaves[i]? = some leaf ∧
      (steps.tail.map (·.onLeft)).reverse = leafPath leaves.length i := by
  rw [root_ofLeaves ht] at hroot
  cases steps with
  | nil => simp [inclusionHolds] at h
  | cons first rest =>
    simp only [inclusionHolds, Bool.and_eq_true, beq_iff_eq] at h
    obtain ⟨rfl, rfl⟩ := h
    exact getElem?_of_fold hinj hu hleaf rest hroot

/-- The fourth of five leaves: left of the first cut, right of the two below. -/
theorem getElem?_fourth_of_five :
    inclusionHolds (fun a b : FreeMagma Nat => a * b) (.of 3)
        (.of 0 * .of 1 * (.of 2 * .of 3) * .of 4)
        [⟨false, .of 3⟩, ⟨true, .of 2⟩, ⟨true, .of 0 * .of 1⟩, ⟨false, .of 4⟩] = true ∧
      ∃ i, ([0, 1, 2, 3, 4].map FreeMagma.of)[i]? = some (.of 3) ∧
        [false, true, true] = leafPath 5 i := by
  have hsteps : inclusionHolds (fun a b : FreeMagma Nat => a * b) (.of 3)
      (.of 0 * .of 1 * (.of 2 * .of 3) * .of 4)
      [⟨false, .of 3⟩, ⟨true, .of 2⟩, ⟨true, .of 0 * .of 1⟩, ⟨false, .of 4⟩] = true := by decide
  have hroot := root_letters [0, 1, 2, 3, 4]
  have hletter := unjoined_letters [3] (.of 3) (by simp)
  exact ⟨hsteps, getElem?_of_inclusionHolds mul_injective2 (unjoined_letters _) (ofLeaves_eq _)
    (hroot.trans (by decide +kernel)) hletter _ hsteps⟩

end TamperEvident
