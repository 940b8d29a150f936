import TamperEvident.Proofs.Merkle.Peaks

/-! Where nodes lie among the leaves. As long as counts stay below the largest
leaf number, or nodes below the height that has all of them, the tests on nodes
say what they say without a largest number. -/

namespace TamperEvident.Node

theorem topLeaf_lt_of_tall {n : Node} (h : ¬ n.height < 64) : topLeaf < 2 ^ n.height := by
  have hp : 2 ^ 64 ≤ 2 ^ n.height := Nat.pow_le_pow_right (by omega) (by omega)
  unfold topLeaf
  omega

theorem start_lt_stop (n : Node) : n.start < n.stop := by
  have hp := Nat.two_pow_pos n.height
  rw [n.stop_eq]
  omega

@[simp] theorem start_leaf (i : Nat) : (leaf i).start = i := by simp [leaf, start]

@[simp] theorem stop_leaf (i : Nat) : (leaf i).stop = i + 1 := by simp [leaf, stop]

theorem minLeaf_lt_iff {n : Node} {count : Nat} (hc : count ≤ topLeaf) :
    n.minLeaf < count ↔ n.start < count := by
  by_cases hh : n.height < 64
  · rw [minLeaf, leaves, if_pos hh, start]
    omega
  · have hp := topLeaf_lt_of_tall hh
    rw [minLeaf, leaves, if_neg hh, start]
    by_cases hz : n.index = 0
    · rw [hz, Nat.zero_mul, Nat.zero_mul]
      omega
    · have hmin : 1 * topLeaf ≤ n.index * topLeaf := Nat.mul_le_mul_right _ (by omega)
      have hstart : 1 * 2 ^ n.height ≤ n.index * 2 ^ n.height := Nat.mul_le_mul_right _ (by omega)
      omega

/-- Counts at which a node is tested as in exact arithmetic. At the largest one
a node over all leaf numbers would pass for complete. -/
def Exact (n : Node) (count : Nat) : Prop := count < topLeaf ∨ count = topLeaf ∧ n.height < 64

theorem Exact.of_height_le {m n : Node} {count : Nat} (h : n.Exact count)
    (hh : m.height ≤ n.height) : m.Exact count :=
  h.imp_right fun ⟨hc, hn⟩ => ⟨hc, hh.trans_lt hn⟩

theorem Exact.le_topLeaf {n : Node} {count : Nat} (h : n.Exact count) : count ≤ topLeaf := by
  rcases h with h | ⟨h, _⟩
  · exact h.le
  · exact h.le

theorem isWithin_iff_of_exact {n : Node} {count : Nat} (h : n.Exact count) :
    n.isWithin count = true ↔ n.stop ≤ count := by
  have hp := Nat.two_pow_pos n.height
  have hstop := n.stop_eq
  have hc := h.le_topLeaf
  rw [isWithin, decide_eq_true_iff, maxLeaf]
  by_cases hh : n.height < 64
  · rw [minLeaf, leaves, if_pos hh]
    unfold start at hstop
    omega
  · have ht := topLeaf_lt_of_tall hh
    have hlt : count < topLeaf := h.resolve_right fun ⟨_, hn⟩ => hh hn
    rw [leaves, if_neg hh]
    omega

theorem isWithin_iff {n : Node} {count : Nat} (hc : count < topLeaf) :
    n.isWithin count = true ↔ n.stop ≤ count := isWithin_iff_of_exact (.inl hc)

theorem height_lt_of_stop_le {n : Node} {count : Nat} (hc : count ≤ topLeaf)
    (h : n.stop ≤ count) : n.height < 64 := by
  by_contra hh
  have ht := topLeaf_lt_of_tall hh
  have hstop := n.stop_eq
  omega

theorem index_eq_zero_of_tall {n : Node} (hn : n.start ≤ topLeaf) (hh : ¬ n.height < 64) :
    n.index = 0 := by
  have hlt : n.index * 2 ^ n.height < 1 * 2 ^ n.height := by
    rw [Nat.one_mul]
    exact hn.trans_lt (topLeaf_lt_of_tall hh)
  exact Nat.lt_one_iff.mp (Nat.lt_of_mul_lt_mul_right hlt)

theorem minLeaf_of_start_le {n : Node} (h : n.start ≤ topLeaf) : n.minLeaf = n.start := by
  by_cases hh : n.height < 64
  · rw [minLeaf, leaves, if_pos hh]
    exact Nat.min_eq_left h
  · rw [minLeaf, start, index_eq_zero_of_tall h hh, Nat.zero_mul, Nat.zero_mul, Nat.zero_min]

theorem minLeaf_of_stop_le {n : Node} (h : n.stop ≤ topLeaf) : n.minLeaf = n.start :=
  minLeaf_of_start_le (n.start_lt_stop.le.trans h)

theorem maxLeaf_of_stop_le {n : Node} (h : n.stop ≤ topLeaf) : n.maxLeaf = n.stop - 1 := by
  have hp := Nat.two_pow_pos n.height
  have hstop := n.stop_eq
  rw [maxLeaf, minLeaf_of_stop_le h, leaves, if_pos (height_lt_of_stop_le le_rfl h)]
  omega

theorem contains_iff {n m : Node} (hm : m.stop ≤ topLeaf) :
    n.contains m = true ↔ n.start ≤ m.start ∧ m.stop ≤ n.stop := by
  have hlt := m.start_lt_stop
  have hleft : n.minLeaf < m.start + 1 ↔ n.start < m.start + 1 := minLeaf_lt_iff (by omega)
  have hright : n.isWithin (m.stop - 1) = true ↔ n.stop ≤ m.stop - 1 := isWithin_iff (by omega)
  rw [isWithin, decide_eq_true_iff] at hright
  rw [contains, Bool.and_eq_true, decide_eq_true_iff, decide_eq_true_iff, minLeaf_of_stop_le hm,
    maxLeaf_of_stop_le hm]
  omega

/-- A node does not begin inside a lower one. -/
theorem start_le_of_lt_stop {m n : Node} (hh : m.height ≤ n.height) (h : n.start < m.stop) :
    n.start ≤ m.start := by
  have hn : n.start = n.index * 2 ^ (n.height - m.height) * 2 ^ m.height := by
    rw [start, Nat.mul_assoc, ← Nat.pow_add, Nat.sub_add_cancel hh]
  rw [hn, stop] at h
  rw [hn, start]
  exact Nat.mul_le_mul_right _ (by have := Nat.lt_of_mul_lt_mul_right h; omega)

theorem isRight_eq_not_isLeft (n : Node) : n.isRight = !n.isLeft := by
  rcases Nat.mod_two_eq_zero_or_one n.index with h | h <;> simp [isRight, isLeft, h]

theorem isLeft_sibling (n : Node) : n.sibling.isLeft = !n.isLeft := by
  rcases Nat.mod_two_eq_zero_or_one n.index with h | h
  · have hs : (n.index + 1) % 2 = 1 := by omega
    simp [sibling, isLeft, h, hs]
  · have hs : (n.index - 1) % 2 = 0 := by omega
    simp [sibling, isLeft, h, hs]

theorem sibling_sibling (n : Node) : n.sibling.sibling = n := by
  rcases Nat.mod_two_eq_zero_or_one n.index with h | h
  · have hs : (n.index + 1) % 2 = 1 := by omega
    simp [sibling, isLeft, h, hs]
  · have hs : (n.index - 1) % 2 = 0 := by omega
    have hback : n.index - 1 + 1 = n.index := by omega
    simp [sibling, isLeft, h, hs, hback]

theorem parent_sibling (n : Node) : n.sibling.parent = n.parent := by
  rcases Nat.mod_two_eq_zero_or_one n.index with h | h
  · have hs : (n.index + 1) / 2 = n.index / 2 := by omega
    simp [sibling, isLeft, parent, h, hs]
  · have hs : (n.index - 1) / 2 = n.index / 2 := by omega
    simp [sibling, isLeft, parent, h, hs]

theorem height_sibling (n : Node) : n.sibling.height = n.height := by
  unfold sibling
  split <;> rfl

theorem start_sibling {n : Node} (h : n.isLeft = true) : n.sibling.start = n.stop := by
  rw [sibling, if_pos h]
  rfl

theorem start_parent {n : Node} (h : n.isLeft = true) : n.parent.start = n.start := by
  have hi : n.index / 2 * 2 = n.index := by
    simp only [isLeft, beq_iff_eq] at h
    omega
  rw [start, start, parent, Nat.pow_succ', ← Nat.mul_assoc, hi]

theorem stop_parent {n : Node} (h : n.isLeft = true) : n.parent.stop = n.sibling.stop := by
  have hstart := start_parent h
  have hsibling := start_sibling h
  have hp : 2 ^ n.parent.height = 2 * 2 ^ n.height := Nat.pow_succ'
  rw [stop_eq, hp, stop_eq, hsibling, height_sibling, n.stop_eq, hstart]
  omega

theorem stop_parent_eq {n : Node} (h : n.isLeft = true) : n.parent.stop = n.stop + 2 ^ n.height := by
  rw [stop_parent h, stop_eq, start_sibling h, height_sibling]

theorem isLeft_sibling_of_right {n : Node} (h : n.isLeft = false) : n.sibling.isLeft = true := by
  rw [isLeft_sibling, h]
  rfl

theorem start_of_right {n : Node} (h : n.isLeft = false) : n.start = n.sibling.stop := by
  have hh := start_sibling (isLeft_sibling_of_right h)
  rwa [sibling_sibling] at hh

theorem start_parent_of_right {n : Node} (h : n.isLeft = false) :
    n.parent.start = n.sibling.start := by
  rw [← n.parent_sibling, start_parent (isLeft_sibling_of_right h)]

theorem stop_parent_of_right {n : Node} (h : n.isLeft = false) : n.parent.stop = n.stop := by
  have hh := stop_parent (isLeft_sibling_of_right h)
  rwa [parent_sibling, sibling_sibling] at hh

theorem climbRight_of_left {n : Node} (h : n.isLeft = true) : n.climbRight = n := by
  rw [climbRight, dif_neg (by rw [isRight_eq_not_isLeft, h]; decide)]

theorem climbRight_of_right {n : Node} (h : n.isLeft = false) :
    n.climbRight = n.parent.climbRight := by
  rw [climbRight, dif_pos (by rw [isRight_eq_not_isLeft, h]; decide)]

/-- Induction along the climb from right children to the first left one. -/
theorem climbInduction {motive : Node → Prop} (left : ∀ n, n.isLeft = true → motive n)
    (right : ∀ n, n.isLeft = false → motive n.parent → motive n) (n : Node) : motive n := by
  induction n using climbRight.induct with
  | case1 n h _ ih => exact right n (by rw [isRight_eq_not_isLeft] at h; simpa using h) ih
  | case2 n h => exact left n (by rw [isRight_eq_not_isLeft] at h; simpa using h)

theorem isLeft_climbRight (n : Node) : n.climbRight.isLeft = true := by
  induction n using climbInduction with
  | left n h => rwa [climbRight_of_left h]
  | right n h ih => rwa [climbRight_of_right h]

theorem stop_climbRight (n : Node) : n.climbRight.stop = n.stop := by
  induction n using climbInduction with
  | left n h => rw [climbRight_of_left h]
  | right n h ih => rw [climbRight_of_right h, ih, stop_parent_of_right h]

theorem height_le_climbRight (n : Node) : n.height ≤ n.climbRight.height := by
  induction n using climbInduction with
  | left n h => rw [climbRight_of_left h]
  | right n h ih =>
    rw [climbRight_of_right h]
    exact Nat.le_of_succ_le ih

theorem index_climbRight_le (n : Node) : n.climbRight.index ≤ n.index := by
  induction n using climbInduction with
  | left n h => rw [climbRight_of_left h]
  | right n h ih =>
    rw [climbRight_of_right h]
    exact ih.trans (Nat.div_le_self _ _)

end TamperEvident.Node
