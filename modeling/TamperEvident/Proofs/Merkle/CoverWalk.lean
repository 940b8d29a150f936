import Mathlib.Logic.Function.Iterate
import TamperEvident.Merkle.CoverWalk
import TamperEvident.Proofs.Merkle.Carry
import TamperEvident.Proofs.Merkle.LeafSpace
import TamperEvident.Proofs.Merkle.Tiling

/-! The search for a cover ends, wherever a cover is asked for. Each node it finds is higher than
those to its right are together, so there are as many as ones among the binary digits of the number
of leaves, and none of them is as high as the node they stand in for. That keeps every climb away
from the nodes over all leaf numbers, on which it would go on without end. -/

namespace TamperEvident

theorem popCount_add_two_pow {r h : Nat} (hr : r < 2 ^ h) :
    popCount (r + 2 ^ h) = popCount r + 1 := by
  induction h generalizing r with
  | zero =>
    obtain rfl : r = 0 := by omega
    rw [popCount_half (0 + 2 ^ 0)]
    exact Nat.add_comm _ _
  | succ h ih =>
    have hpow : 2 ^ (h + 1) = 2 * 2 ^ h := Nat.pow_succ'
    have hlow : (r + 2 ^ (h + 1)) % 2 = r % 2 := by omega
    have hhalf : (r + 2 ^ (h + 1)) / 2 = r / 2 + 2 ^ h := by omega
    rw [popCount_half, hlow, hhalf, ih (show r / 2 < 2 ^ h by omega), popCount_half r, Nat.add_assoc]

namespace Ladder

variable {stop bottom start : Nat} {nodes : List Node}

/-- Each step adds a one to the binary digits of what lies to the right of it. -/
theorem popCount_eq (h : Ladder stop bottom start nodes) (hstart : start ≤ stop) :
    popCount (stop - bottom) = popCount (stop - start) + nodes.length := by
  induction nodes generalizing start with
  | nil =>
    obtain rfl : start = bottom := h
    rfl
  | cons n rest ih =>
    obtain ⟨rfl, hsize, hrest⟩ := h
    have hstop := n.stop_eq
    have hgrown : stop - n.start = stop - n.stop + 2 ^ n.height := by omega
    rw [ih hrest (by omega), hgrown, popCount_add_two_pow hsize, List.length_cons,
      Nat.add_right_comm, Nat.add_assoc]

theorem height_lt {right left : Node} (h : Ladder stop bottom start (right :: left :: nodes))
    (hstart : start ≤ stop) : right.height < left.height := by
  obtain ⟨rfl, _, _, hsize, _⟩ := h
  have hstop := right.stop_eq
  exact (Nat.pow_lt_pow_iff_right Nat.one_lt_two).mp (by omega)

theorem rises (h : Ladder stop bottom start nodes) (hstart : start ≤ stop) :
    nodes.IsChain fun right left => left.stop = right.start ∧ right.height < left.height := by
  induction nodes generalizing start with
  | nil => exact .nil
  | cons n rest ih =>
    obtain ⟨hn, _, hrest⟩ := id h
    have hlow := n.start_lt_stop
    cases rest with
    | nil => exact .singleton n
    | cons m rest => exact .cons_cons ⟨hrest.1, h.height_lt hstart⟩ (ih hrest (by omega))

theorem lt_of_mem (h : Ladder stop bottom start nodes) (hstart : start ≤ stop) {m : Node}
    (hm : m ∈ nodes) : stop < m.stop + 2 ^ m.height := by
  induction nodes generalizing start with
  | nil => cases hm
  | cons n rest ih =>
    obtain ⟨rfl, hsize, hrest⟩ := h
    have hlow := n.start_lt_stop
    rcases List.mem_cons.mp hm with rfl | hm
    · omega
    · exact ih hrest (by omega) hm

/-- A step that begins where a higher one ends, or at a bottom that divides as a higher one does, is
a left child. -/
theorem isLeft_of_mem {height : Nat} (h : Ladder stop bottom start nodes) (hstart : start ≤ stop)
    (hbottom : 2 ^ height ∣ bottom) (hlow : ∀ m ∈ nodes, m.height < height) :
    ∀ m ∈ nodes, m.isLeft = true := by
  induction nodes generalizing start with
  | nil => simp
  | cons n rest ih =>
    obtain ⟨hn, _, hrest⟩ := id h
    have hlt := n.start_lt_stop
    have hdvd : 2 ^ (n.height + 1) ∣ n.start := by
      cases rest with
      | nil =>
        rw [show n.start = bottom from hrest]
        exact (Nat.pow_dvd_pow 2 (hlow n List.mem_cons_self)).trans hbottom
      | cons m rest =>
        rw [← hrest.1]
        exact (Nat.pow_dvd_pow 2 (h.height_lt hstart)).trans (Nat.dvd_mul_left _ _)
    have hleft : n.isLeft = true := by
      rw [Nat.pow_succ', Node.start, Nat.mul_dvd_mul_iff_right (Nat.two_pow_pos _)] at hdvd
      simpa [Node.isLeft] using Nat.mod_eq_zero_of_dvd hdvd
    exact List.forall_mem_cons.mpr
      ⟨hleft, ih hrest (by omega) fun m hm => hlow m (List.mem_cons_of_mem _ hm)⟩

end Ladder

theorem Tiles.le_start {nodes : List Node} {lo hi : Nat} (h : Tiles nodes lo hi) {n : Node}
    (hn : n ∈ nodes) : lo ≤ n.start :=
  ((h.covers n.start).mp ⟨n, hn, le_rfl, n.start_lt_stop⟩).1

namespace Node

variable {n m : Node} {count : Nat}

theorem mem_cover (hexact : n.Exact count) (hstart : n.start < count) (hout : count < n.stop)
    (hm : m ∈ n.cover count) : n.start ≤ m.start ∧ m.stop ≤ count ∧ m.height < n.height := by
  have htiles := (ladder_cover hexact hstart hout).tiles
  have hlow := htiles.le_start hm
  have hhigh := htiles.stop_le hm
  have hm' := m.stop_eq
  have hn' := n.stop_eq
  exact ⟨hlow, hhigh, (Nat.pow_lt_pow_iff_right Nat.one_lt_two).mp (by omega)⟩

theorem parent_of_mem_cover (hexact : n.Exact count) (hstart : n.start < count)
    (hout : count < n.stop) (hm : m ∈ n.cover count) : m.parent.isWithin count = false := by
  have hladder := ladder_cover hexact hstart hout
  have hlow : ∀ m ∈ n.cover count, m.height < n.height :=
    fun m hm => (mem_cover hexact hstart hout hm).2.2
  have hleft := hladder.isLeft_of_mem le_rfl (Nat.dvd_mul_left _ _) hlow m hm
  have hgap := hladder.lt_of_mem le_rfl hm
  have hparent : m.parent.Exact count := hexact.of_height_le (hlow m hm)
  rw [Bool.eq_false_iff, ne_eq, isWithin_iff_of_exact hparent, stop_parent_eq hleft]
  omega

/-- Where a node begins before the count and is not within it, only some of its leaves are among
the first `count`, and the tests on it and on those below it are exact. -/
theorem exact_of_partial (hcount : count ≤ topLeaf) (hmin : n.minLeaf < count)
    (hout : n.isWithin count = false) :
    n.minLeaf = n.start ∧ n.Exact count ∧ count < n.stop := by
  have hstart : n.start < count := (minLeaf_lt_iff hcount).mp hmin
  have hlow : n.start ≤ topLeaf := hstart.le.trans hcount
  have hnot := mt (isWithin_iff_of_start_le hlow hcount).mpr (Bool.eq_false_iff.mp hout)
  refine ⟨minLeaf_of_start_le hlow, ?_, by omega⟩
  unfold Exact
  omega

end Node

namespace CoverWalk

variable {n c : Node} {count : Nat} {found : List Node}

theorem step_inside (h : n.contains c = true) :
    step n count (.atCursor (some c) found) = .climbing c found := by
  rw [step, Option.filter_some_pos h]

theorem step_outside (h : ¬ n.contains c = true) :
    step n count (.atCursor (some c) found) = .done found := by
  rw [step, Option.filter_some_eq_none.mpr h]

theorem step_up (h : c.parent.isWithin count = true) :
    step n count (.climbing c found) = .climbing c.parent found := if_pos h

theorem step_top (h : c.parent.isWithin count = false) :
    step n count (.climbing c found) = .atCursor c.left? (found ++ [c]) :=
  if_neg (Bool.eq_false_iff.mp h)

/-- At the largest count no climb ends once it is below the nodes over all leaf numbers: each of
them passes for complete without the last leaf. -/
theorem climbing_endless (hheight : 63 ≤ c.height) (hindex : c.index = 0) (k : Nat) :
    (step n Node.topLeaf)^[k] (.climbing c found) = .climbing ⟨c.height + k, 0⟩ found := by
  induction k with
  | zero =>
    obtain ⟨height, index⟩ := c
    obtain rfl : index = 0 := hindex
    rfl
  | succ k ih =>
    have hup : (⟨c.height + k, 0⟩ : Node).parent = ⟨c.height + k + 1, 0⟩ := by simp [Node.parent]
    have hstart : (⟨c.height + k + 1, 0⟩ : Node).start ≤ Node.topLeaf := by
      rw [Node.start, Nat.zero_mul]
      exact Nat.zero_le _
    have htall : 64 ≤ c.height + k + 1 := by omega
    have hwithin := (Node.isWithin_iff_of_start_le hstart le_rfl).mpr (.inr ⟨htall, rfl⟩)
    rw [← hup] at hwithin
    rw [Function.iterate_succ_apply', ih, step_up hwithin, hup]
    rfl

/-- A climb makes one test for each level up, and one more. -/
theorem exists_climb (n : Node) (h : (c.climbWithin count).parent.isWithin count = false)
    (found : List Node) :
    ∃ k, k + c.height = (c.climbWithin count).height + 1 ∧
      (step n count)^[k] (.climbing c found) =
        .atCursor (c.climbWithin count).left? (found ++ [c.climbWithin count]) := by
  induction c using Node.climbWithin.induct count with
  | case1 c hup ih =>
    have hnext : c.climbWithin count = c.parent.climbWithin count := by
      rw [Node.climbWithin, if_pos hup]
    rw [hnext] at h ⊢
    obtain ⟨k, hk, hrun⟩ := ih h
    refine ⟨k + 1, (Nat.add_right_comm k 1 c.height).trans hk, ?_⟩
    rw [Function.iterate_succ_apply, step_up hup.2, hrun]
  | case2 c hup =>
    have hhere : c.climbWithin count = c := by rw [Node.climbWithin, if_neg hup]
    rw [hhere] at h ⊢
    exact ⟨1, Nat.add_comm 1 _, step_top (n := n) h⟩

theorem exists_round (hin : n.contains c = true)
    (h : (c.climbWithin count).parent.isWithin count = false) (found : List Node) :
    ∃ k, k + c.height = (c.climbWithin count).height + 2 ∧
      (step n count)^[k] (.atCursor (some c) found) =
        .atCursor (c.climbWithin count).left? (found ++ [c.climbWithin count]) := by
  obtain ⟨k, hk, hrun⟩ := exists_climb n h found
  refine ⟨k + 1, by omega, ?_⟩
  rw [Function.iterate_succ_apply, step_inside hin, hrun]

/-- Where none of the nodes to be found could be higher, the search ends, and with these nodes. For
each of them it tests the cursor and the end of a climb, and its climbs are together no longer than
the highest of them is high. -/
theorem exists_walk {height : Nat}
    (h : ∀ m ∈ n.coverFrom count c, m.parent.isWithin count = false)
    (hlow : ∀ m ∈ n.coverFrom count c, m.height ≤ height) (hc : c.height ≤ height)
    (found : List Node) :
    ∃ k, k + c.height ≤ 2 * (n.coverFrom count c).length + height + 1 ∧
      (step n count)^[k] (.atCursor (some c) found) = .done (found ++ n.coverFrom count c) := by
  induction c using Node.coverFrom.induct n count generalizing found with
  | case1 c hin top hindex =>
    have hcover : n.coverFrom count c = [top] := by
      rw [Node.coverFrom, if_pos hin]
      exact dif_pos hindex
    rw [hcover] at h hlow ⊢
    have hhigh := hlow top List.mem_cons_self
    have hend : top.left? = none := if_pos hindex
    obtain ⟨k, hk, hrun⟩ := exists_round hin (h top List.mem_cons_self) found
    change k + c.height = top.height + 2 at hk
    refine ⟨k + 1, ?_, ?_⟩
    · rw [List.length_singleton]
      omega
    · rw [Function.iterate_succ_apply', hrun, hend]
      rfl
  | case2 c hin top hindex ih =>
    have hcover : n.coverFrom count c = top :: n.coverFrom count ⟨top.height, top.index - 1⟩ := by
      rw [Node.coverFrom, if_pos hin]
      exact dif_neg hindex
    rw [hcover] at h hlow ⊢
    have hhigh := hlow top List.mem_cons_self
    have hnext : top.left? = some ⟨top.height, top.index - 1⟩ := if_neg hindex
    obtain ⟨k, hk, hrun⟩ := exists_round hin (h top List.mem_cons_self) found
    obtain ⟨j, hj, hrest⟩ := ih (fun m hm => h m (List.mem_cons_of_mem _ hm))
      (fun m hm => hlow m (List.mem_cons_of_mem _ hm)) hhigh (found ++ [top])
    change k + c.height = top.height + 2 at hk
    change j + top.height ≤ _ at hj
    refine ⟨j + k, ?_, ?_⟩
    · rw [List.length_cons]
      omega
    · rw [Function.iterate_add_apply, hrun, hnext, hrest, List.append_assoc]
      rfl
  | case3 c hin =>
    have hcover : n.coverFrom count c = [] := by rw [Node.coverFrom, if_neg hin]
    rw [hcover, List.append_nil]
    refine ⟨1, ?_, ?_⟩
    · rw [List.length_nil]
      omega
    · change step n count (.atCursor (some c) found) = .done found
      exact step_outside hin

theorem exists_walk_cover (hexact : n.Exact count) (hstart : n.start < count)
    (hout : count < n.stop) :
    ∃ k, k ≤ 2 * (n.cover count).length + 64 ∧
      (step n count)^[k] (start count) = .done (n.cover count) := by
  have hcover : n.cover count = n.coverFrom count (.leaf (count - 1)) := by
    rw [Node.cover, if_neg (by omega)]
  have htop : ∀ m ∈ n.cover count, m.parent.isWithin count = false :=
    fun m hm => Node.parent_of_mem_cover hexact hstart hout hm
  have hlow : ∀ m ∈ n.cover count, m.height ≤ 63 := fun m hm =>
    Nat.le_of_lt_succ <|
      Node.height_lt_of_stop_le hexact.le_topLeaf (Node.mem_cover hexact hstart hout hm).2.1
  rw [hcover] at htop hlow ⊢
  rw [start, if_neg (by omega)]
  exact exists_walk htop hlow (Nat.zero_le 63) []

/-- For a node that has some of the first `count` leaves and is not complete, the search ends. It
finds complete nodes below it, higher and higher from right to left and each next to the one before,
that together have the leaves from its first one up to the count. There are as many of them as ones
among the binary digits of the number of these leaves. -/
theorem finds_cover (hcount : count < 2 ^ 64) (hmin : n.minLeaf < count)
    (hout : n.isWithin count = false) :
    ∃ nodes k, (step n count)^[k] (start count) = .done nodes ∧ k ≤ 2 * nodes.length + 64 ∧
      nodes = n.cover count ∧ nodes ≠ [] ∧ Tiles nodes n.minLeaf count ∧
      (nodes.IsChain fun right left => left.stop = right.start) ∧
      (nodes.Pairwise fun right left => right.height < left.height) ∧
      (∀ m ∈ nodes, m.height < 64 ∧ m.minLeaf = m.start ∧ m.maxLeaf = m.stop - 1 ∧
        n.contains m = true ∧ n.start ≤ m.start ∧ m.stop ≤ n.stop) ∧
      nodes.length = popCount (count - n.minLeaf) := by
  have htop : count ≤ Node.topLeaf := Nat.le_sub_one_of_lt hcount
  obtain ⟨hlow, hexact, hstop⟩ := Node.exact_of_partial htop hmin hout
  rw [hlow] at hmin ⊢
  obtain ⟨k, hk, hrun⟩ := exists_walk_cover hexact hmin hstop
  have hladder := Node.ladder_cover hexact hmin hstop
  have hrises := hladder.rises le_rfl
  have hlength := hladder.popCount_eq le_rfl
  rw [Nat.sub_self, popCount_zero, Nat.zero_add] at hlength
  refine ⟨n.cover count, k, hrun, hk, rfl, ?_, hladder.tiles,
    hrises.imp fun _ _ h => h.1, (hrises.imp fun _ _ h => h.2).pairwise, ?_, hlength.symm⟩
  · intro hempty
    rw [hempty] at hladder
    exact hmin.ne' hladder
  · intro m hm
    obtain ⟨hstart, hend, _⟩ := Node.mem_cover hexact hmin hstop hm
    have hroom : m.stop ≤ Node.topLeaf := hend.trans htop
    have hinside : m.stop ≤ n.stop := hend.trans hstop.le
    exact ⟨Node.height_lt_of_stop_le htop hend, Node.minLeaf_of_stop_le hroom,
      Node.maxLeaf_of_stop_le hroom, (Node.contains_iff hroom).mpr ⟨hstart, hinside⟩, hstart,
      hinside⟩

/-- The right half of the leaf numbers at the largest count. To the left of the nodes that are found a
climb would not end. -/
theorem finds_cover_of_right_half :
    2 ^ 64 - 1 < 2 ^ 64 ∧ (⟨63, 1⟩ : Node).minLeaf < 2 ^ 64 - 1 ∧
      (⟨63, 1⟩ : Node).isWithin (2 ^ 64 - 1) = false ∧
      ∃ nodes k, (step ⟨63, 1⟩ (2 ^ 64 - 1))^[k] (start (2 ^ 64 - 1)) = .done nodes ∧
        Tiles nodes (2 ^ 63) (2 ^ 64 - 1) ∧
        (nodes.Pairwise fun right left => right.height < left.height) ∧
        nodes.length = popCount (2 ^ 63 - 1) := by
  have hmin : (⟨63, 1⟩ : Node).minLeaf < 2 ^ 64 - 1 := by decide
  have hout : (⟨63, 1⟩ : Node).isWithin (2 ^ 64 - 1) = false := by decide
  obtain ⟨nodes, k, hrun, _, _, _, htiles, _, hrises, _, hlength⟩ :=
    finds_cover (by decide) hmin hout
  exact ⟨by decide, hmin, hout, nodes, k, hrun, htiles, hrises, hlength⟩

end CoverWalk

end TamperEvident
