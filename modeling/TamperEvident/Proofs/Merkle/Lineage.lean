import Mathlib.Data.Nat.Log
import TamperEvident.Merkle.Node

/-! The nodes above a node. The climb through a tree goes by the number of leaves alone, halved at
each level, so it is as long from any node as it is from a leaf. It reaches the root, and from a node
above the leaves it does not end there. -/

namespace TamperEvident.Node

def lineage (n : Node) (top : Nat) : List Node :=
  (List.range (top - n.height)).map fun k => ⟨n.height + 1 + k, n.index / 2 ^ (k + 1)⟩

variable {n : Node} {top count : Nat}

theorem lineage_self (n : Node) : n.lineage n.height = [] := by
  rw [lineage, Nat.sub_self]
  rfl

theorem lineage_of_lt (h : n.height < top) : n.lineage top = n.parent :: n.parent.lineage top := by
  have hlevels : top - n.height = top - n.parent.height + 1 := by
    simp only [parent]
    omega
  rw [lineage, hlevels, List.range_succ_eq_map, List.map_cons, List.map_map, lineage]
  refine congrArg₂ List.cons ?_ (List.map_congr_left fun k _ => ?_)
  · simp [parent]
  · simp only [parent, Function.comp_apply, Nat.succ_eq_add_one, Nat.div_div_eq_div_mul,
      ← Nat.pow_succ']
    congr 1
    omega

/-- The climb has one node for each time that the number of leaves can be halved. -/
theorem ancestors_eq (n : Node) (count : Nat) :
    n.ancestors count = n.lineage (n.height + Nat.clog 2 count) := by
  induction n, count using ancestors.induct with
  | case1 n count h =>
    rw [ancestors, if_pos h, Nat.clog_of_right_le_one h, Nat.add_zero, lineage_self]
  | case2 n count h ih =>
    have hlevels : Nat.clog 2 count = Nat.clog 2 ((count + 1) / 2) + 1 :=
      Nat.clog_of_one_lt Nat.one_lt_two (Nat.lt_of_not_le h)
    have htop : n.height + Nat.clog 2 count =
        n.parent.height + Nat.clog 2 ((count + 1) / 2) := by
      simp only [parent]
      omega
    rw [ancestors, if_neg h, ih, ← htop, ← lineage_of_lt]
    omega

theorem lineage_append {mid : Nat} (hmid : n.height ≤ mid) (htop : mid ≤ top) :
    n.lineage top =
      n.lineage mid ++ (⟨mid, n.index / 2 ^ (mid - n.height)⟩ : Node).lineage top := by
  have hlevels : top - n.height = (mid - n.height) + (top - mid) := by omega
  rw [lineage, hlevels, List.range_add, List.map_append, List.map_map, lineage, lineage]
  refine congrArg _ (List.map_congr_left fun k _ => ?_)
  simp only [Function.comp_apply, Nat.div_div_eq_div_mul, ← Nat.pow_add]
  congr 1
  omega

theorem getLast?_lineage (h : n.height ≤ top) :
    (n :: n.lineage top).getLast? = some ⟨top, n.index / 2 ^ (top - n.height)⟩ := by
  rcases h.eq_or_lt with rfl | h
  · rw [lineage_self, Nat.sub_self, Nat.pow_zero, Nat.div_one]
    rfl
  · obtain ⟨levels, rfl⟩ := Nat.exists_eq_add_of_lt h
    have hlevels : n.height + levels + 1 - n.height = levels + 1 := by omega
    rw [List.getLast?_cons, lineage, List.getLast?_map, hlevels, List.range_succ,
      List.getLast?_concat, Option.map_some, Option.getD_some, Nat.add_right_comm]

/-- In the tree of the first `count` leaves, the root is the only node at its height. -/
theorem index_div_root (hn : n.start < count) (hheight : n.height ≤ Nat.clog 2 count) :
    n.index / 2 ^ (Nat.clog 2 count - n.height) = 0 := by
  have hroot : count ≤ 2 ^ Nat.clog 2 count := Nat.le_pow_clog Nat.one_lt_two count
  have hsplit : 2 ^ Nat.clog 2 count = 2 ^ (Nat.clog 2 count - n.height) * 2 ^ n.height := by
    rw [← Nat.pow_add, Nat.sub_add_cancel hheight]
  refine Nat.div_eq_of_lt (Nat.lt_of_mul_lt_mul_right (a := 2 ^ n.height) ?_)
  rw [← hsplit]
  exact hn.trans_le hroot

/-- From a node of a tree the climb has the chain of its parents up to the root, and then as many
nodes above the root as the node is above the leaves. It is the chain up to the root just from a
leaf. -/
theorem ancestors_pass_root (hn : n.start < count) (hheight : n.height ≤ Nat.clog 2 count) :
    n.ancestors count = n.lineage (Nat.clog 2 count) ++
        (⟨Nat.clog 2 count, 0⟩ : Node).lineage (Nat.clog 2 count + n.height) ∧
      (n :: n.lineage (Nat.clog 2 count)).getLast? = some ⟨Nat.clog 2 count, 0⟩ ∧
      (n.ancestors count = n.lineage (Nat.clog 2 count) ↔ n.height = 0) := by
  have hzero := index_div_root hn hheight
  have hclimb : n.ancestors count = n.lineage (Nat.clog 2 count) ++
      (⟨Nat.clog 2 count, 0⟩ : Node).lineage (Nat.clog 2 count + n.height) := by
    rw [ancestors_eq, Nat.add_comm, lineage_append hheight (Nat.le_add_right _ _), hzero]
  refine ⟨hclimb, ?_, ?_⟩
  · rw [getLast?_lineage hheight, hzero]
  · rw [hclimb, List.append_right_eq_self, lineage, List.map_eq_nil_iff, List.range_eq_nil,
      Nat.add_sub_cancel_left]

/-- From the second of the nodes over four leaves, in a tree of eleven. -/
theorem ancestors_pass_root_of_eleven :
    (⟨2, 1⟩ : Node).start < 11 ∧ 2 ≤ Nat.clog 2 11 ∧
      (⟨2, 1⟩ : Node).lineage (Nat.clog 2 11) = [⟨3, 0⟩, ⟨4, 0⟩] ∧
      (⟨2, 1⟩ : Node).ancestors 11 = [⟨3, 0⟩, ⟨4, 0⟩] ++ [⟨5, 0⟩, ⟨6, 0⟩] := by
  have hn : (⟨2, 1⟩ : Node).start < 11 := by decide
  have hheight : 2 ≤ Nat.clog 2 11 := by decide
  obtain ⟨hclimb, _⟩ := ancestors_pass_root hn hheight
  exact ⟨hn, hheight, by decide, hclimb.trans (by decide)⟩

/-- The root of six leaves stands right above the first node over four of them. The climb goes on. -/
theorem ancestors_beyond_root_of_six :
    (⟨2, 0⟩ : Node).start < 6 ∧ 2 ≤ Nat.clog 2 6 ∧
      (⟨2, 0⟩ : Node).lineage (Nat.clog 2 6) = [⟨3, 0⟩] ∧
      (⟨2, 0⟩ : Node).ancestors 6 = [⟨3, 0⟩, ⟨4, 0⟩, ⟨5, 0⟩] ∧
      (⟨2, 0⟩ : Node).ancestors 6 ≠ (⟨2, 0⟩ : Node).lineage (Nat.clog 2 6) := by
  rw [ancestors_eq]
  decide

end TamperEvident.Node
