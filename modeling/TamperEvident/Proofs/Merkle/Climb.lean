import TamperEvident.Merkle.Checker
import TamperEvident.Proofs.Merkle.History

/-! The climb from a node to the root. On the way the value so far is the root of
what the node reached holds of the tree: a sibling with leaves is joined on its
side, and one without them adds nothing. -/

namespace TamperEvident

variable {α : Type} {combine : α → α → α}

/-- A step that stands for a node of the tree of the first `count` leaves. -/
def Shows (combine : α → α → α) (leaves : List α) (count : Nat) (n : Node) (s : Step α) : Prop :=
  s.onLeft = n.isLeft ∧ nodeRoot combine leaves count n = some s.entry

def siblings (n : Node) (m : Nat) : List Node := (n :: n.ancestors m).map Node.sibling

theorem siblings_of_le {n : Node} {m : Nat} (h : m ≤ 1) : siblings n m = [n.sibling] := by
  rw [siblings, Node.ancestors, if_pos h]
  rfl

theorem siblings_of_lt {n : Node} {m : Nat} (h : ¬ m ≤ 1) :
    siblings n m = n.sibling :: siblings n.parent ((m + 1) / 2) := by
  rw [siblings, Node.ancestors, if_neg h]
  rfl

theorem resolve_toward (combine : α → α → α) {leaves : List α} {count : Nat}
    (htop : count < Node.topLeaf) (hcount : count ≤ leaves.length) {nodes : List Node}
    (h : ∀ n ∈ nodes, n.start < count) :
    ∃ steps, resolve combine (treeOf combine leaves).stored (nodes.map (Step.toward count)) =
        .ok steps ∧ List.Forall₂ (Shows combine leaves count) nodes steps := by
  induction nodes with
  | nil => exact ⟨[], rfl, .nil⟩
  | cons n nodes ih =>
    obtain ⟨root, hroot, hvalue⟩ := value_toward combine htop hcount (h n List.mem_cons_self)
    obtain ⟨steps, hsteps, hshows⟩ := ih fun m hm => h m (List.mem_cons_of_mem _ hm)
    refine ⟨⟨n.isLeft, root⟩ :: steps, ?_, .cons ⟨rfl, hroot⟩ hshows⟩
    rw [resolve] at hsteps
    rw [resolve, List.map_cons, List.mapM_cons, hvalue, hsteps]
    rfl

theorem resolve_toRoot (combine : α → α → α) {leaves : List α} {count : Nat}
    (htop : count < Node.topLeaf) (hcount : count ≤ leaves.length) {n : Node}
    (h : n.start < count) :
    ∃ first rest, resolve combine (treeOf combine leaves).stored (Step.toRoot n count) =
        .ok (first :: rest) ∧ nodeRoot combine leaves count n = some first.entry ∧
      List.Forall₂ (Shows combine leaves count) ((siblings n count).filter (·.minLeaf < count))
        rest := by
  have hmin : n.minLeaf < count := (Node.minLeaf_lt_iff htop.le).mpr h
  have hnodes : (n :: siblings n count).filter (·.minLeaf < count) =
      n :: (siblings n count).filter (·.minLeaf < count) :=
    List.filter_cons_of_pos (by simpa using hmin)
  have hinside : ∀ m ∈ n :: (siblings n count).filter (·.minLeaf < count), m.start < count := by
    rw [← hnodes]
    intro m hm
    have hlt := (List.mem_filter.mp hm).2
    rwa [decide_eq_true_iff, Node.minLeaf_lt_iff htop.le] at hlt
  obtain ⟨steps, hsteps, hshows⟩ := resolve_toward combine htop hcount hinside
  rw [← hnodes] at hsteps
  cases hshows with
  | cons hfirst hrest => exact ⟨_, _, hsteps, hfirst.2, hrest⟩

theorem nodeRoot_parent_apply {leaves : List α} {count : Nat} {n : Node} {s : Step α} {value : α}
    (hcount : count ≤ leaves.length) (hn : n.start < count)
    (hvalue : nodeRoot combine leaves count n = some value) (hsibling : n.sibling.start < count)
    (hs : Shows combine leaves count n.sibling s) :
    nodeRoot combine leaves count n.parent = some (Step.apply combine value s) := by
  obtain ⟨hside, hentry⟩ := hs
  rw [Node.isLeft_sibling] at hside
  cases hleft : n.isLeft with
  | true =>
    rw [Node.start_sibling hleft] at hsibling
    rw [nodeRoot_parent_of_lt hleft hsibling hcount, hvalue, hentry, Step.apply, hside, hleft]
    rfl
  | false =>
    have hleft' := Node.isLeft_sibling_of_right hleft
    rw [Node.start_of_right hleft] at hn
    rw [← n.parent_sibling, nodeRoot_parent_of_lt hleft' hn hcount, n.sibling_sibling, hvalue,
      hentry, Step.apply, hside, hleft]
    rfl

theorem nodeRoot_parent_skip {leaves : List α} {count : Nat} {n : Node} (hn : n.start < count)
    (hsibling : count ≤ n.sibling.start) :
    nodeRoot combine leaves count n.parent = nodeRoot combine leaves count n := by
  cases hleft : n.isLeft with
  | true =>
    rw [Node.start_sibling hleft] at hsibling
    exact nodeRoot_parent_of_le hleft hsibling
  | false =>
    have hlt := n.sibling.start_lt_stop
    rw [Node.start_of_right hleft] at hn
    omega

/-- Induction along the siblings that hold leaves, from a node up to the root. The
climb ends as soon as one node is left at its height. -/
theorem siblingInduction {count : Nat} {motive : Node → List Node → Prop}
    (root : ∀ n : Node, n.index = 0 → count ≤ n.stop → motive n [])
    (join : ∀ (n : Node) l, n.start < count → n.sibling.start < count → motive n.parent l →
      motive n (n.sibling :: l))
    (skip : ∀ (n : Node) l, n.start < count → count ≤ n.sibling.start → motive n.parent l →
      motive n l)
    (htop : count ≤ Node.topLeaf) {n : Node} {m : Nat} (hindex : n.index < m)
    (hsize : count ≤ m * 2 ^ n.height) (hn : n.start < count) :
    motive n ((siblings n m).filter (·.minLeaf < count)) := by
  induction n, m using Node.ancestors.induct with
  | case1 n m hm =>
    obtain rfl : m = 1 := by omega
    have hzero : n.index = 0 := by omega
    have hstop : count ≤ n.stop := by rw [Node.stop, hzero]; omega
    have hsibling : ¬ n.sibling.minLeaf < count := by
      rw [Node.minLeaf_lt_iff htop, Node.start_sibling (by rw [Node.isLeft, hzero]; rfl)]
      omega
    rw [siblings_of_le hm, List.filter_cons_of_neg (by simpa using hsibling)]
    exact root n hzero hstop
  | case2 n m hm ih =>
    have hindex' : n.parent.index < (m + 1) / 2 := by
      simp only [Node.parent]
      omega
    have hsize' : count ≤ (m + 1) / 2 * 2 ^ n.parent.height := by
      have hhalf : m * 2 ^ n.height ≤ (m + 1) / 2 * 2 * 2 ^ n.height :=
        Nat.mul_le_mul_right _ (by omega)
      rw [Node.parent, Nat.pow_succ', ← Nat.mul_assoc]
      exact hsize.trans hhalf
    have hrest := ih hindex' hsize' (n.start_parent_le.trans_lt hn)
    have hmin : n.sibling.minLeaf < count ↔ n.sibling.start < count := Node.minLeaf_lt_iff htop
    rw [siblings_of_lt hm]
    by_cases hsibling : n.sibling.start < count
    · rw [List.filter_cons_of_pos (by simpa using hmin.mpr hsibling)]
      exact join n _ hn hsibling hrest
    · rw [List.filter_cons_of_neg (by simpa using mt hmin.mp hsibling)]
      exact skip n _ hn (Nat.le_of_not_lt hsibling) hrest

theorem foldl_siblings {leaves : List α} {count : Nat} (htop : count < Node.topLeaf)
    (hcount : count ≤ leaves.length) {n : Node} {m : Nat} (hindex : n.index < m)
    (hsize : count ≤ m * 2 ^ n.height) (hn : n.start < count) {steps : List (Step α)}
    (hshows : List.Forall₂ (Shows combine leaves count)
      ((siblings n m).filter (·.minLeaf < count)) steps)
    {value : α} (hvalue : nodeRoot combine leaves count n = some value) :
    listRoot combine (leaves.take count) = some (steps.foldl (Step.apply combine) value) := by
  refine siblingInduction (motive := fun n l => ∀ steps value,
    List.Forall₂ (Shows combine leaves count) l steps →
    nodeRoot combine leaves count n = some value →
    listRoot combine (leaves.take count) = some (steps.foldl (Step.apply combine) value))
    ?_ ?_ ?_ htop.le hindex hsize hn steps value hshows hvalue
  · intro n hzero hstop steps value hshows hvalue
    cases hshows
    rw [← nodeRoot_top combine leaves hzero hstop, hvalue]
    rfl
  · intro n l hn hsibling ih steps value hshows hvalue
    cases hshows with
    | cons hfirst hrest =>
      rw [List.foldl_cons]
      exact ih _ _ hrest (nodeRoot_parent_apply hcount hn hvalue hsibling hfirst)
  · intro n l hn hsibling ih steps value hshows hvalue
    exact ih _ _ hshows ((nodeRoot_parent_skip hn hsibling).trans hvalue)

end TamperEvident
