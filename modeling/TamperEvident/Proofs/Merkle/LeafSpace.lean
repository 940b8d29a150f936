import TamperEvident.Proofs.Merkle.Coordinates

/-! The tests on nodes at the end of the leaf numbers. A node that begins at a number which can be
named is tested as in exact arithmetic, up to the last leaf of a node over all of them: the number
of its leaves is itself cut off, and so comes out one too small. -/

namespace TamperEvident.Node

theorem contains_leaf_iff {n : Node} {i : Nat} (hi : i ≤ topLeaf) :
    n.contains (leaf i) = true ↔ n.minLeaf ≤ i ∧ n.isWithin i = false := by
  have hstart : (leaf i).start ≤ topLeaf := by rwa [start_leaf]
  have hmin : (leaf i).minLeaf = i := by rw [minLeaf_of_start_le hstart, start_leaf]
  have hmax : (leaf i).maxLeaf = i := by
    rw [maxLeaf, hmin]
    exact Nat.min_eq_left hi
  rw [contains, hmin, hmax, isWithin, Bool.and_eq_true, decide_eq_true_iff, decide_eq_true_iff,
    decide_eq_false_iff_not, Nat.not_lt]

/-- A node over all leaf numbers looks as if it ended before the last of them. -/
theorem maxLeaf_of_tall {n : Node} (hn : n.start ≤ topLeaf) (hh : 64 ≤ n.height) :
    n.start = 0 ∧ n.maxLeaf = topLeaf - 1 := by
  have hshort : ¬ n.height < 64 := Nat.not_lt.mpr hh
  have hstart : n.start = 0 := by rw [start, index_eq_zero_of_tall hn hshort, Nat.zero_mul]
  refine ⟨hstart, ?_⟩
  rw [maxLeaf, minLeaf_of_start_le hn, hstart, leaves, if_neg hshort]
  rfl

theorem isWithin_iff_of_start_le {n : Node} {count : Nat} (hn : n.start ≤ topLeaf)
    (hcount : count ≤ topLeaf) :
    n.isWithin count = true ↔ n.stop ≤ count ∨ 64 ≤ n.height ∧ count = topLeaf := by
  by_cases hlast : 64 ≤ n.height ∧ count = topLeaf
  · obtain ⟨_, hmax⟩ := maxLeaf_of_tall hn hlast.1
    rw [isWithin, decide_eq_true_iff, hmax, hlast.2]
    exact iff_of_true (by decide) (.inr ⟨hlast.1, rfl⟩)
  · have hexact : n.Exact count := by
      unfold Exact
      omega
    rw [isWithin_iff_of_exact hexact, or_iff_left hlast]

/-- A node that begins at a leaf number holds the leaves that it has in exact arithmetic, and is
within the counts that it is within there, but for one leaf and one count: at a height where it has
all leaf numbers, it lacks the last of them and passes as complete without it. -/
theorem tests_of_leaf_range {n : Node} {i count : Nat} (hn : n.start ≤ topLeaf) (hi : i ≤ topLeaf)
    (hcount : count ≤ topLeaf) :
    (n.contains (leaf i) = true ↔
      (n.start ≤ i ∧ i < n.stop) ∧ ¬ (64 ≤ n.height ∧ i = topLeaf)) ∧
    (n.isWithin count = true ↔ n.stop ≤ count ∨ 64 ≤ n.height ∧ count = topLeaf) ∧
    (64 ≤ n.height → (n.contains (leaf i) = true ↔ i ≠ topLeaf) ∧
      (n.isWithin count = true ↔ count = topLeaf)) := by
  have hwithin := isWithin_iff_of_start_le hn hcount
  have hcontains : n.contains (leaf i) = true ↔
      (n.start ≤ i ∧ i < n.stop) ∧ ¬ (64 ≤ n.height ∧ i = topLeaf) := by
    have hlast := isWithin_iff_of_start_le hn hi
    rw [contains_leaf_iff hi, minLeaf_of_start_le hn, Bool.eq_false_iff, ne_eq, hlast]
    omega
  refine ⟨hcontains, hwithin, fun hh => ?_⟩
  obtain ⟨hstart, _⟩ := maxLeaf_of_tall hn hh
  have hstop := n.stop_eq
  have hpow := topLeaf_lt_of_tall (Nat.not_lt.mpr hh)
  rw [hcontains, hwithin]
  omega

/-- The right half of the leaf numbers ends with the last of them, and so is not within any count.
The node over both halves lacks that leaf, and is within a count without it. -/
theorem tests_of_last_leaf :
    (⟨63, 1⟩ : Node).start ≤ topLeaf ∧ (⟨64, 0⟩ : Node).start ≤ topLeaf ∧
      (⟨63, 1⟩ : Node).contains (leaf topLeaf) = true ∧
      (⟨63, 1⟩ : Node).isWithin topLeaf = false ∧
      (⟨64, 0⟩ : Node).contains (leaf topLeaf) = false ∧
      (⟨64, 0⟩ : Node).isWithin topLeaf = true := by
  have hhalf : (⟨63, 1⟩ : Node).start ≤ topLeaf := by decide
  have hall : (⟨64, 0⟩ : Node).start ≤ topLeaf := by decide
  obtain ⟨hholds, hwithin, _⟩ := tests_of_leaf_range hhalf (le_refl topLeaf) (le_refl topLeaf)
  obtain ⟨_, _, htall⟩ := tests_of_leaf_range hall (le_refl topLeaf) (le_refl topLeaf)
  obtain ⟨hlacks, hpasses⟩ := htall (le_refl 64)
  refine ⟨hhalf, hall, hholds.mpr (by decide), ?_, ?_, hpasses.mpr rfl⟩
  · exact Bool.eq_false_iff.mpr (mt hwithin.mp (by decide))
  · exact Bool.eq_false_iff.mpr fun h => hlacks.mp h rfl

/-- In exact arithmetic the node over all leaf numbers has the last of them, and is not within a
count that ends before it. -/
theorem tests_of_last_leaf_inexact :
    (⟨64, 0⟩ : Node).start ≤ topLeaf ∧
      ¬ ((⟨64, 0⟩ : Node).contains (leaf topLeaf) = true ↔
        (⟨64, 0⟩ : Node).start ≤ topLeaf ∧ topLeaf < (⟨64, 0⟩ : Node).stop) ∧
      ¬ ((⟨64, 0⟩ : Node).isWithin topLeaf = true ↔ (⟨64, 0⟩ : Node).stop ≤ topLeaf) := by
  decide

end TamperEvident.Node
