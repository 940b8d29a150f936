import Mathlib.Data.List.Induction
import Mathlib.Logic.Function.Basic
import TamperEvident.Merkle.Root

/-! The root of a list of leaves, taken apart where the list is cut. A joined
value that gives back what it was joined from makes the root give back the
list. -/

namespace TamperEvident

variable {α : Type} {combine : α → α → α}

theorem splitPoint_eq {n k : Nat} (hlt : 2 ^ k < n) (hle : n ≤ 2 ^ (k + 1)) :
    splitPoint n = 2 ^ k := by
  have hk := Nat.two_pow_pos k
  have hlog : (n - 1).log2 = k := (Nat.log2_eq_iff (by omega)).mpr ⟨by omega, by omega⟩
  rw [splitPoint, hlog]

theorem listRoot_nil : listRoot combine [] = none := by
  rw [listRoot]

theorem listRoot_singleton (leaf : α) : listRoot combine [leaf] = some leaf := by
  rw [listRoot]

theorem listRoot_append {as bs : List α} (has : as ≠ []) (hbs : bs ≠ [])
    (hcut : as.length = splitPoint (as ++ bs).length) :
    listRoot combine (as ++ bs) =
      (listRoot combine as).bind fun left => (listRoot combine bs).map (combine left) := by
  have ha := List.length_pos_iff.mpr has
  have hb := List.length_pos_iff.mpr hbs
  match hl : as ++ bs with
  | [] => simp [has] at hl
  | [x] =>
    have := congrArg List.length hl
    simp only [List.length_append, List.length_singleton] at this
    omega
  | x :: y :: rest =>
    rw [listRoot, ← hl, ← hcut, List.take_left, List.drop_left]
    cases listRoot combine as <;> cases listRoot combine bs <;> rfl

theorem listRoot_append_perfect {as bs : List α} {k : Nat} (has : as.length = 2 ^ k)
    (hbs : bs ≠ []) (hle : bs.length ≤ 2 ^ k) :
    listRoot combine (as ++ bs) =
      (listRoot combine as).bind fun left => (listRoot combine bs).map (combine left) := by
  have hk := Nat.two_pow_pos k
  have hb := List.length_pos_iff.mpr hbs
  have hcut : splitPoint (2 ^ k + bs.length) = 2 ^ k :=
    splitPoint_eq (by omega) (by rw [Nat.pow_succ]; omega)
  refine listRoot_append (List.length_pos_iff.mp (by omega)) hbs ?_
  rw [List.length_append, has, hcut]

@[elab_as_elim]
theorem cutInduction {motive : (leaves : List α) → leaves ≠ [] → Prop}
    (leaf : ∀ x, motive [x] (List.cons_ne_nil x []))
    (join : ∀ as bs (has : as ≠ []) (hbs : bs ≠ []), as.length = splitPoint (as ++ bs).length →
      motive as has → motive bs hbs → motive (as ++ bs) (List.append_ne_nil_of_left_ne_nil has bs))
    (leaves : List α) (h : leaves ≠ []) : motive leaves h := by
  induction hn : leaves.length using Nat.strongRecOn generalizing leaves with
  | ind n ih =>
    by_cases h2 : 2 ≤ leaves.length
    · have hpos := splitPoint_pos leaves.length
      have hlt := splitPoint_lt h2
      have hcut := List.take_append_drop (splitPoint leaves.length) leaves
      have hleft : (leaves.take (splitPoint leaves.length)).length = splitPoint leaves.length := by
        rw [List.length_take]
        omega
      have hright : (leaves.drop (splitPoint leaves.length)).length =
          leaves.length - splitPoint leaves.length := List.length_drop
      generalize leaves.take (splitPoint leaves.length) = as at hcut hleft
      generalize leaves.drop (splitPoint leaves.length) = bs at hcut hright
      subst hcut
      have has : as ≠ [] := List.length_pos_iff.mp (by omega)
      have hbs : bs ≠ [] := List.length_pos_iff.mp (by omega)
      exact join as bs has hbs hleft (ih _ (by omega) as has rfl) (ih _ (by omega) bs hbs rfl)
    · obtain ⟨x, rfl⟩ : ∃ x, leaves = [x] := by
        have := List.length_pos_iff.mpr h
        exact List.length_eq_one_iff.mp (by omega)
      exact leaf x

theorem exists_listRoot (combine : α → α → α) {leaves : List α} (h : leaves ≠ []) :
    ∃ root, listRoot combine leaves = some root := by
  induction leaves, h using cutInduction with
  | leaf x => exact ⟨x, listRoot_singleton x⟩
  | join as bs has hbs hcut iha ihb =>
    obtain ⟨left, hl⟩ := iha
    obtain ⟨right, hr⟩ := ihb
    exact ⟨combine left right, by rw [listRoot_append has hbs hcut, hl, hr]; rfl⟩

theorem ne_nil_of_listRoot {leaves : List α} {root : α}
    (h : listRoot combine leaves = some root) : leaves ≠ [] := by
  rintro rfl
  simp [listRoot_nil] at h

theorem exists_listRoot_append (combine : α → α → α) {as bs : List α}
    (has : as ≠ []) (hbs : bs ≠ []) (hcut : as.length = splitPoint (as ++ bs).length) :
    ∃ left right, listRoot combine as = some left ∧ listRoot combine bs = some right ∧
      listRoot combine (as ++ bs) = some (combine left right) := by
  obtain ⟨left, hl⟩ := exists_listRoot combine has
  obtain ⟨right, hr⟩ := exists_listRoot combine hbs
  exact ⟨left, right, hl, hr, by rw [listRoot_append has hbs hcut, hl, hr]; rfl⟩

/-- A value that is no join of two values. -/
def Unjoined (combine : α → α → α) (x : α) : Prop := ∀ a b, combine a b ≠ x

theorem unjoined_append {as bs : List α} (h : ∀ x ∈ as ++ bs, Unjoined combine x) :
    (∀ x ∈ as, Unjoined combine x) ∧ ∀ x ∈ bs, Unjoined combine x :=
  ⟨fun x hx => h x (List.mem_append_left _ hx), fun x hx => h x (List.mem_append_right _ hx)⟩

end TamperEvident
