import TamperEvident.Proofs.Merkle.Cover

/-! What a tree answers about an earlier leaf count. A node then stands for the
leaves that it holds among the first `count`, whether it is stored or has to be
joined from its cover, and its parent for those of both children. -/

namespace TamperEvident

variable {α : Type} {combine : α → α → α}

def nodeRoot (combine : α → α → α) (leaves : List α) (count : Nat) (n : Node) : Option α :=
  listRoot combine (slice leaves n.start (min n.stop count))

theorem nodeRoot_complete {leaves : List α} {count : Nat} {n : Node} (h : n.stop ≤ count)
    (hcount : count ≤ leaves.length) :
    nodeRoot combine leaves count n =
      perfectRoot combine n.height (slice leaves n.start n.stop) := by
  rw [nodeRoot, Nat.min_eq_left h, perfectRoot_eq_listRoot (length_slice_node (h.trans hcount))]

/-- A left child whose sibling holds no leaf yet has the root of its parent. -/
theorem nodeRoot_parent_of_le {leaves : List α} {count : Nat} {n : Node} (hleft : n.isLeft = true)
    (h : count ≤ n.stop) :
    nodeRoot combine leaves count n.parent = nodeRoot combine leaves count n := by
  have hstop : count ≤ n.parent.stop := by
    have hlt := n.sibling.start_lt_stop
    rw [Node.start_sibling hleft] at hlt
    rw [Node.stop_parent hleft]
    omega
  rw [nodeRoot, nodeRoot, Node.start_parent hleft, Nat.min_eq_right h, Nat.min_eq_right hstop]

theorem nodeRoot_parent_of_lt {leaves : List α} {count : Nat} {n : Node} (hleft : n.isLeft = true)
    (h : n.stop < count) (hcount : count ≤ leaves.length) :
    nodeRoot combine leaves count n.parent =
      (nodeRoot combine leaves count n).bind fun left =>
        (nodeRoot combine leaves count n.sibling).map (combine left) := by
  have hlt := n.start_lt_stop
  have hsize := n.sibling.stop_eq
  rw [Node.height_sibling, Node.start_sibling hleft] at hsize
  have hpow := Nat.two_pow_pos n.height
  have hfull : (slice leaves n.start n.stop).length = 2 ^ n.height :=
    length_slice_node (h.le.trans hcount)
  have hrest : (slice leaves n.stop (min n.sibling.stop count)).length =
      min n.sibling.stop count - n.stop := by
    rw [length_slice]
    omega
  have hne : slice leaves n.stop (min n.sibling.stop count) ≠ [] :=
    List.length_pos_iff.mp (by omega)
  have hcut := slice_append hlt.le (by omega : n.stop ≤ min n.sibling.stop count) leaves
  rw [nodeRoot, nodeRoot, nodeRoot, Node.start_parent hleft, Node.stop_parent hleft,
    Node.start_sibling hleft, Nat.min_eq_left h.le, ← hcut]
  exact listRoot_append_perfect hfull hne (by omega)

theorem nodeRoot_top (combine : α → α → α) (leaves : List α) {count : Nat} {n : Node}
    (hindex : n.index = 0) (hstop : count ≤ n.stop) :
    nodeRoot combine leaves count n = listRoot combine (leaves.take count) := by
  rw [nodeRoot, Nat.min_eq_right hstop, Node.start, hindex, Nat.zero_mul]
  rfl

theorem value_toward (combine : α → α → α) {leaves : List α} {count : Nat}
    (htop : count < Node.topLeaf) (hcount : count ≤ leaves.length) {n : Node}
    (h : n.start < count) :
    ∃ root, nodeRoot combine leaves count n = some root ∧
      (Step.toward count n).entry.value combine (treeOf combine leaves).stored = .ok root := by
  by_cases hin : n.isWithin count = true
  · have hstop := (Node.isWithin_iff htop).mp hin
    obtain ⟨root, hroot, hstored⟩ := stored_complete combine (hstop.trans hcount)
    refine ⟨root, ?_, ?_⟩
    · rw [nodeRoot_complete hstop hcount, hroot]
    · rw [Step.toward, if_pos hin]
      exact hstored
  · have hstop : count < n.stop := by
      rw [Node.isWithin_iff htop] at hin
      omega
    obtain ⟨root, hroot, hcover⟩ := coverValue_cover combine htop hcount h hstop
    refine ⟨root, ?_, ?_⟩
    · rw [nodeRoot, Nat.min_eq_right hstop.le, hroot]
    · rw [Step.toward, if_neg hin]
      exact hcover

theorem checkAvailable_treeOf (leaves : List α) (count : Nat) :
    (treeOf combine leaves).checkAvailable count =
      if leaves.length < count then .error (.missingLeaves count leaves.length) else .ok () := rfl

theorem nodeValue_treeOf (combine : α → α → α) {leaves : List α} {count : Nat}
    (htop : count < Node.topLeaf) (hcount : count ≤ leaves.length) {n : Node}
    (h : n.start < count) :
    ∃ root, nodeRoot combine leaves count n = some root ∧
      (treeOf combine leaves).nodeValue combine n count = .ok root := by
  obtain ⟨root, hroot, hvalue⟩ := value_toward combine htop hcount h
  refine ⟨root, hroot, ?_⟩
  rw [Tree.nodeValue, checkAvailable_treeOf, if_neg (by omega), ← hvalue, Step.toward]
  by_cases hin : n.isWithin count = true
  · simp only [hin]
    rfl
  · have hmin : ¬ count ≤ n.minLeaf := by
      rw [Nat.not_le]
      exact (Node.minLeaf_lt_iff htop.le).mpr h
    simp only [hin, hmin]
    rfl

theorem le_two_pow_bitLength {n : Nat} (h : 0 < n) : n ≤ 2 ^ bitLength (n - 1) := by
  by_cases hone : n = 1
  · rw [hone]
    exact Nat.one_le_two_pow
  · have hlt := Nat.lt_log2_self (n := n - 1)
    rw [bitLength, if_neg (by omega)]
    omega

theorem rootAt_treeOf (combine : α → α → α) {leaves : List α} {count : Nat}
    (htop : count < Node.topLeaf) (hpos : 0 < count) (hcount : count ≤ leaves.length) :
    ∃ root, listRoot combine (leaves.take count) = some root ∧
      (treeOf combine leaves).rootAt combine count = .ok root := by
  have hsize := le_two_pow_bitLength hpos
  obtain ⟨root, hroot, hvalue⟩ :=
    nodeValue_treeOf combine htop hcount (n := ⟨bitLength (count - 1), 0⟩)
      (by rw [Node.start, Nat.zero_mul]; exact hpos)
  rw [nodeRoot_top combine leaves rfl (by simpa [Node.stop] using hsize)] at hroot
  refine ⟨root, hroot, ?_⟩
  rw [Tree.rootAt, if_neg (by omega), hvalue]

end TamperEvident
