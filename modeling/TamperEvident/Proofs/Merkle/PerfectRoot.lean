import Mathlib.Logic.Function.Iterate
import Mathlib.Tactic.Ring
import TamperEvident.Proofs.Merkle.ListRoot

/-! Perfect trees over slices of a list of leaves, and the levels of complete
nodes that joining neighbours again and again gives. -/

namespace TamperEvident

variable {α : Type} {combine : α → α → α}

def slice (leaves : List α) (start stop : Nat) : List α := (leaves.take stop).drop start

theorem length_slice (leaves : List α) (start stop : Nat) :
    (slice leaves start stop).length = min stop leaves.length - start := by
  rw [slice, List.length_drop, List.length_take]

theorem slice_all (leaves : List α) : slice leaves 0 leaves.length = leaves := by
  rw [slice, List.take_length, List.drop_zero]

theorem slice_append {start mid stop : Nat} (hs : start ≤ mid) (hm : mid ≤ stop)
    (leaves : List α) :
    slice leaves start mid ++ slice leaves mid stop = slice leaves start stop := by
  have ht : leaves.take mid = (leaves.take stop).take mid := by
    rw [List.take_take, Nat.min_eq_left hm]
  have hd := List.take_append_drop (mid - start) ((leaves.take stop).drop start)
  rw [List.drop_drop, Nat.add_sub_cancel' hs] at hd
  rw [slice, slice, slice, ht, List.drop_take]
  exact hd

theorem slice_one (leaves : List α) (i : Nat) : slice leaves i (i + 1) = leaves[i]?.toList := by
  by_cases hi : i ≤ leaves.length
  · rw [slice, List.take_add_one, List.drop_left' (by rw [List.length_take, Nat.min_eq_left hi])]
  · rw [List.getElem?_eq_none (by omega)]
    exact List.length_eq_zero_iff.mp (by rw [length_slice]; omega)

/-- The root of the perfect tree of a height over exactly the leaves it takes. -/
def perfectRoot (combine : α → α → α) : (height : Nat) → List α → Option α
  | 0, [leaf] => some leaf
  | 0, _ => none
  | height + 1, leaves => do
    let left ← perfectRoot combine height (leaves.take (2 ^ height))
    let right ← perfectRoot combine height (leaves.drop (2 ^ height))
    return combine left right

theorem perfectRoot_append {height : Nat} {as : List α} (has : as.length = 2 ^ height)
    (bs : List α) :
    perfectRoot combine (height + 1) (as ++ bs) =
      (perfectRoot combine height as).bind fun left =>
        (perfectRoot combine height bs).map (combine left) := by
  rw [perfectRoot, List.take_left' has, List.drop_left' has]
  cases perfectRoot combine height as <;> cases perfectRoot combine height bs <;> rfl

theorem perfectRoot_eq_listRoot {height : Nat} {leaves : List α}
    (h : leaves.length = 2 ^ height) :
    perfectRoot combine height leaves = listRoot combine leaves := by
  induction height generalizing leaves with
  | zero =>
    obtain ⟨leaf, rfl⟩ := List.length_eq_one_iff.mp h
    rw [listRoot_singleton, perfectRoot]
  | succ height ih =>
    rw [Nat.pow_succ] at h
    have ht : (leaves.take (2 ^ height)).length = 2 ^ height := by
      rw [List.length_take]
      omega
    have hd : (leaves.drop (2 ^ height)).length = 2 ^ height := by
      rw [List.length_drop]
      omega
    have hne := List.length_pos_iff.mp (hd ▸ Nat.two_pow_pos height)
    rw [← List.take_append_drop (2 ^ height) leaves, perfectRoot_append ht, ih ht, ih hd,
      listRoot_append_perfect ht hne (Nat.le_of_eq hd)]

theorem perfectRoot_eq_none {height : Nat} {leaves : List α} (h : leaves.length < 2 ^ height) :
    perfectRoot combine height leaves = none := by
  induction height generalizing leaves with
  | zero =>
    obtain rfl : leaves = [] := List.length_eq_zero_iff.mp (by simpa using h)
    rfl
  | succ height ih =>
    rw [Nat.pow_succ] at h
    have hd : (leaves.drop (2 ^ height)).length < 2 ^ height := by
      rw [List.length_drop]
      omega
    rw [perfectRoot, ih hd]
    cases perfectRoot combine height (leaves.take (2 ^ height)) <;> rfl

/-- The joins of neighbours; a last one without a partner is left out. -/
def pairUp (combine : α → α → α) : List α → List α
  | left :: right :: rest => combine left right :: pairUp combine rest
  | [_] => []
  | [] => []

theorem length_pairUp (l : List α) : (pairUp combine l).length = l.length / 2 := by
  fun_induction pairUp combine l with
  | case1 left right rest ih =>
    simp only [List.length_cons, ih]
    omega
  | case2 => simp
  | case3 => simp

theorem pairUp_append {as : List α} (h : as.length % 2 = 0) (bs : List α) :
    pairUp combine (as ++ bs) = pairUp combine as ++ pairUp combine bs := by
  fun_induction pairUp combine as with
  | case1 left right rest ih =>
    simp only [List.length_cons] at h
    simp only [List.cons_append, pairUp, ih (by omega)]
  | case2 => simp at h
  | case3 => rfl

theorem getElem?_pairUp (l : List α) (i : Nat) :
    (pairUp combine l)[i]? =
      l[2 * i]?.bind fun left => l[2 * i + 1]?.map (combine left) := by
  fun_induction pairUp combine l generalizing i with
  | case1 left right rest ih =>
    cases i with
    | zero => rfl
    | succ i => simpa [Nat.mul_succ] using ih i
  | case2 x => cases i <;> simp [Nat.mul_succ]
  | case3 => simp

def level (combine : α → α → α) (leaves : List α) (height : Nat) : List α :=
  (pairUp combine)^[height] leaves

theorem level_pairUp (leaves : List α) (height : Nat) :
    level combine (pairUp combine leaves) height = level combine leaves (height + 1) :=
  (Function.iterate_succ_apply _ _ _).symm

theorem level_succ (leaves : List α) (height : Nat) :
    level combine leaves (height + 1) = pairUp combine (level combine leaves height) :=
  Function.iterate_succ_apply' _ _ _

theorem length_level (leaves : List α) (height : Nat) :
    (level combine leaves height).length = leaves.length / 2 ^ height := by
  induction height with
  | zero => simp [level]
  | succ height ih => rw [level_succ, length_pairUp, ih, Nat.div_div_eq_div_mul, Nat.pow_succ]

theorem getElem?_level (leaves : List α) (height i : Nat) :
    (level combine leaves height)[i]? =
      perfectRoot combine height (slice leaves (i * 2 ^ height) ((i + 1) * 2 ^ height)) := by
  induction height generalizing i with
  | zero =>
    rw [level, Function.iterate_zero_apply, Nat.pow_zero, Nat.mul_one, Nat.mul_one, slice_one]
    cases leaves[i]? <;> rfl
  | succ height ih =>
    have hp := Nat.two_pow_pos height
    have hstart : i * 2 ^ (height + 1) = 2 * i * 2 ^ height := by
      rw [Nat.pow_succ]
      ring
    have hstop : (i + 1) * 2 ^ (height + 1) = (2 * i + 1 + 1) * 2 ^ height := by
      rw [Nat.pow_succ]
      ring
    have hmid : (2 * i + 1) * 2 ^ height = 2 * i * 2 ^ height + 2 ^ height := by ring
    have hlast : (2 * i + 1 + 1) * 2 ^ height = (2 * i + 1) * 2 ^ height + 2 ^ height := by ring
    have hcut := slice_append (by omega : 2 * i * 2 ^ height ≤ (2 * i + 1) * 2 ^ height)
      (by omega : (2 * i + 1) * 2 ^ height ≤ (2 * i + 1 + 1) * 2 ^ height) leaves
    rw [level_succ, getElem?_pairUp, ih, ih, hstart, hstop, ← hcut]
    by_cases hfull : (2 * i + 1) * 2 ^ height ≤ leaves.length
    · rw [perfectRoot_append (by rw [length_slice]; omega)]
    · have hshort : (slice leaves (2 * i * 2 ^ height) ((2 * i + 1) * 2 ^ height) ++
          slice leaves ((2 * i + 1) * 2 ^ height) ((2 * i + 1 + 1) * 2 ^ height)).length <
            2 ^ (height + 1) := by
        rw [List.length_append, length_slice, length_slice, Nat.pow_succ]
        omega
      rw [perfectRoot_eq_none hshort, perfectRoot_eq_none (by rw [length_slice]; omega)]
      rfl

end TamperEvident
