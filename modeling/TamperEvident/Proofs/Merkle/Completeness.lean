import Mathlib.Algebra.Free
import TamperEvident.Proofs.Except
import TamperEvident.Proofs.Merkle.Climb

/-! Every proof that a tree makes is accepted, for every pair of counts or of a
leaf and a count for which there is one. The steps of a consistency proof are
one climb in the newer tree; those on the left alone are the same climb in the
older one, where the start is the last node and nothing is on the right. -/

namespace TamperEvident

variable {α : Type} {combine : α → α → α}

theorem Node.stop_le_parent (n : Node) : n.stop ≤ n.parent.stop := by
  cases hleft : n.isLeft with
  | true =>
    have hlt := n.sibling.start_lt_stop
    rw [start_sibling hleft] at hlt
    rw [stop_parent hleft]
    omega
  | false => rw [stop_parent_of_right hleft]

theorem exists_of_mem_siblings {n s : Node} {m : Nat} (h : s ∈ siblings n m) :
    ∃ a : Node, a.sibling = s ∧ a.start ≤ n.start ∧ n.stop ≤ a.stop := by
  induction n, m using Node.ancestors.induct with
  | case1 n m hm =>
    rw [siblings_of_le hm, List.mem_singleton] at h
    exact ⟨n, h.symm, le_rfl, le_rfl⟩
  | case2 n m hm ih =>
    rw [siblings_of_lt hm] at h
    rcases List.mem_cons.mp h with h | h
    · exact ⟨n, h.symm, le_rfl, le_rfl⟩
    · obtain ⟨a, ha, hstart, hstop⟩ := ih h
      exact ⟨a, ha, hstart.trans n.start_parent_le, n.stop_le_parent.trans hstop⟩

/-- A left child is complete at `old` leaves, and a right one has not begun. -/
def Beside (old : Nat) (s : Node) : Prop :=
  (s.isLeft = true → s.stop ≤ old) ∧ (s.isLeft = false → old ≤ s.start)

theorem beside_of_mem_siblings {n s : Node} {m old : Nat} (hstop : n.stop = old)
    (h : s ∈ siblings n m) : Beside old s := by
  obtain ⟨a, rfl, hstart, hend⟩ := exists_of_mem_siblings h
  have hlt := n.start_lt_stop
  rw [Beside, Node.isLeft_sibling]
  constructor
  · intro hside
    rw [Node.start_of_right (by simpa using hside)] at hstart
    omega
  · intro hside
    rw [Node.start_sibling (by simpa using hside)]
    omega

theorem shows_older {leaves : List α} {old new : Nat} (htop : new < Node.topLeaf)
    (hle : old ≤ new) (hnew : new ≤ leaves.length) {nodes : List Node} {steps : List (Step α)}
    (hbeside : ∀ s ∈ nodes, Beside old s)
    (h : List.Forall₂ (Shows combine leaves new) (nodes.filter (·.minLeaf < new)) steps) :
    List.Forall₂ (Shows combine leaves old) (nodes.filter (·.minLeaf < old))
      (steps.filter (·.onLeft)) := by
  induction nodes generalizing steps with
  | nil =>
    cases h
    exact .nil
  | cons s nodes ih =>
    have hlt := s.start_lt_stop
    have hold : s.minLeaf < old ↔ s.start < old := Node.minLeaf_lt_iff (hle.trans htop.le)
    have hnew' : s.minLeaf < new ↔ s.start < new := Node.minLeaf_lt_iff htop.le
    have hrest : ∀ r ∈ nodes, Beside old r := fun r hr => hbeside r (List.mem_cons_of_mem _ hr)
    cases hside : s.isLeft with
    | true =>
      have hstop := (hbeside s List.mem_cons_self).1 hside
      have hkeep : s.minLeaf < old ∧ s.minLeaf < new := by omega
      rw [List.filter_cons_of_pos (by simpa using hkeep.2)] at h
      rw [List.filter_cons_of_pos (by simpa using hkeep.1)]
      cases h with
      | cons hfirst hshows =>
        obtain ⟨honLeft, hentry⟩ := hfirst
        rw [List.filter_cons_of_pos (by rw [honLeft, hside])]
        refine .cons ⟨honLeft, ?_⟩ (ih hrest hshows)
        rw [← hentry, nodeRoot_complete hstop (hle.trans hnew),
          nodeRoot_complete (hstop.trans hle) hnew]
    | false =>
      have hstart := (hbeside s List.mem_cons_self).2 hside
      have hdrop : ¬ s.minLeaf < old := by omega
      rw [List.filter_cons_of_neg (by simpa using hdrop)]
      by_cases hkeep : s.minLeaf < new
      · rw [List.filter_cons_of_pos (by simpa using hkeep)] at h
        cases h with
        | cons hfirst hshows =>
          rw [List.filter_cons_of_neg (by rw [hfirst.1, hside]; decide)]
          exact ih hrest hshows
      · rw [List.filter_cons_of_neg (by simpa using hkeep)] at h
        exact ih hrest h

theorem climbRight_last {old : Nat} (h : 0 < old) :
    (Node.leaf (old - 1)).climbRight.stop = old ∧ (Node.leaf (old - 1)).climbRight.start < old ∧
      (Node.leaf (old - 1)).climbRight.index < old := by
  have hlt := (Node.leaf (old - 1)).climbRight.start_lt_stop
  have hstop := (Node.leaf (old - 1)).stop_climbRight
  have hindex : (Node.leaf (old - 1)).climbRight.index ≤ old - 1 :=
    (Node.leaf (old - 1)).index_climbRight_le
  rw [Node.stop_leaf] at hstop
  omega

theorem nodeRoot_leaf {leaves : List α} {i count : Nat} (h : i < count) :
    nodeRoot combine leaves count (.leaf i) = leaves[i]? := by
  rw [nodeRoot, Node.start_leaf, Node.stop_leaf, Nat.min_eq_left h, slice_one]
  cases leaves[i]? with
  | none => exact listRoot_nil
  | some leaf => exact listRoot_singleton leaf

theorem inclusionProof_eq (leaves : List α) (leaf count : Nat) :
    (treeOf combine leaves).inclusionProof combine leaf count =
      if leaves.length < count then .error (.missingLeaves count leaves.length)
      else if leaf < count then
        resolve combine (treeOf combine leaves).stored (Step.toRoot (.leaf leaf) count)
      else .error (.leafOutOfRange leaf count) := by
  rw [Tree.inclusionProof, checkAvailable_treeOf, Step.inclusion]
  by_cases hcount : leaves.length < count
  · rw [if_pos hcount, if_pos hcount]
    rfl
  · rw [if_neg hcount, if_neg hcount]
    by_cases hleaf : leaf < count
    · rw [if_pos hleaf, if_pos hleaf]
      rfl
    · rw [if_neg hleaf, if_neg hleaf]
      rfl

theorem consistencyProof_eq (leaves : List α) (old new : Nat) :
    (treeOf combine leaves).consistencyProof combine old new =
      if leaves.length < new then .error (.missingLeaves new leaves.length)
      else if old = 0 ∨ new < old then .error (.invalidRange old new)
      else
        resolve combine (treeOf combine leaves).stored
          (Step.toRoot (Node.leaf (old - 1)).climbRight new) := by
  rw [Tree.consistencyProof, checkAvailable_treeOf, Step.consistency]
  by_cases hnew : leaves.length < new
  · rw [if_pos hnew, if_pos hnew]
    rfl
  · rw [if_neg hnew, if_neg hnew]
    by_cases hold : old = 0 ∨ new < old
    · rw [if_pos hold, if_pos hold]
      rfl
    · rw [if_neg hold, if_neg hold]
      rfl

theorem inclusionProof_treeOf (combine : α → α → α) {leaves : List α} {leaf count : Nat}
    (htop : count < Node.topLeaf) (hleaf : leaf < count) (hcount : count ≤ leaves.length) :
    ∃ first rest, (treeOf combine leaves).inclusionProof combine leaf count =
        .ok (first :: rest) ∧ leaves[leaf]? = some first.entry ∧
      listRoot combine (leaves.take count) =
        some (rest.foldl (Step.apply combine) first.entry) := by
  have hstart : (Node.leaf leaf).start < count := by rwa [Node.start_leaf]
  have hsize : count ≤ count * 2 ^ (Node.leaf leaf).height := by simp [Node.leaf]
  obtain ⟨first, rest, hsteps, hfirst, hrest⟩ := resolve_toRoot combine htop hcount hstart
  have hroot := foldl_siblings htop hcount hleaf hsize hstart hrest hfirst
  rw [nodeRoot_leaf hleaf] at hfirst
  refine ⟨first, rest, ?_, hfirst, hroot⟩
  rw [inclusionProof_eq, if_neg (by omega), if_pos hleaf, hsteps]

theorem consistencyProof_treeOf (combine : α → α → α) {leaves : List α} {old new : Nat}
    (htop : new < Node.topLeaf) (hpos : 0 < old) (hle : old ≤ new) (hnew : new ≤ leaves.length) :
    ∃ first rest, (treeOf combine leaves).consistencyProof combine old new =
        .ok (first :: rest) ∧
      listRoot combine (leaves.take old) =
        some ((rest.filter (·.onLeft)).foldl (Step.apply combine) first.entry) ∧
      listRoot combine (leaves.take new) =
        some (rest.foldl (Step.apply combine) first.entry) := by
  obtain ⟨hstop, hstart, hindex⟩ := climbRight_last hpos
  generalize hn : (Node.leaf (old - 1)).climbRight = n at hstop hstart hindex
  have hpow := Nat.one_le_two_pow (n := n.height)
  have hsize : new ≤ new * 2 ^ n.height := Nat.le_mul_of_pos_right new hpow
  obtain ⟨first, rest, hsteps, hfirst, hrest⟩ :=
    resolve_toRoot combine htop hnew (hstart.trans_le hle)
  have hold : nodeRoot combine leaves old n = some first.entry := by
    rw [← hfirst, nodeRoot_complete hstop.le (hle.trans hnew),
      nodeRoot_complete (hstop.le.trans hle) hnew]
  have holder := shows_older htop hle hnew (fun _ hs => beside_of_mem_siblings hstop hs) hrest
  refine ⟨first, rest, ?_, ?_, ?_⟩
  · rw [consistencyProof_eq, if_neg (by omega), if_neg (by omega), hn, hsteps]
  · exact foldl_siblings (hle.trans_lt htop) (hle.trans hnew) (hindex.trans_le hle)
      (hle.trans hsize) hstart holder hold
  · exact foldl_siblings htop hnew (hindex.trans_le hle) hsize (hstart.trans_le hle) hrest hfirst

theorem inclusionProof_eq_error {leaves : List α} (htop : leaves.length < Node.topLeaf)
    {leaf count : Nat} {e : MerkleError} :
    (treeOf combine leaves).inclusionProof combine leaf count = .error e ↔
      leaves.length < count ∧ e = .missingLeaves count leaves.length ∨
      count ≤ leaves.length ∧ count ≤ leaf ∧ e = .leafOutOfRange leaf count := by
  rw [← Nat.not_lt (a := leaves.length), ← Nat.not_lt (a := leaf)]
  refine eq_error_of_tests (fun hcount => ?_) (fun hcount hleaf => ?_) fun hcount hleaf => ?_
  · rw [inclusionProof_eq, if_pos hcount]
  · rw [inclusionProof_eq, if_neg hcount, if_neg hleaf]
  · obtain ⟨first, rest, hproof, _⟩ := inclusionProof_treeOf combine (by omega)
      (Nat.lt_of_not_ge fun h => hleaf (Nat.not_lt.mpr h)) (Nat.le_of_not_lt hcount)
    exact ⟨_, hproof⟩

theorem consistencyProof_eq_error {leaves : List α} (htop : leaves.length < Node.topLeaf)
    {old new : Nat} {e : MerkleError} :
    (treeOf combine leaves).consistencyProof combine old new = .error e ↔
      leaves.length < new ∧ e = .missingLeaves new leaves.length ∨
      new ≤ leaves.length ∧ (old = 0 ∨ new < old) ∧ e = .invalidRange old new := by
  rw [← Nat.not_lt (a := leaves.length)]
  refine eq_error_of_tests (fun hnew => ?_) (fun hnew hold => ?_) fun hnew hold => ?_
  · rw [consistencyProof_eq, if_pos hnew]
  · rw [consistencyProof_eq, if_neg hnew, if_pos hold]
  · obtain ⟨first, rest, hproof, _⟩ := consistencyProof_treeOf combine (by omega)
      (by omega : 0 < old) (by omega) (Nat.le_of_not_lt hnew)
    exact ⟨_, hproof⟩

theorem lt_topLeaf {n : Nat} (h : n < 2 ^ 63) : n < Node.topLeaf := by
  unfold Node.topLeaf
  omega

variable [DecidableEq α]

/-- For every leaf of every earlier count a tree has a proof, which holds against
the root at that count. For any other pair it says what is wrong. -/
theorem inclusionProof_complete (combine : α → α → α) {leaves : List α}
    (hlen : leaves.length < 2 ^ 63) :
    ∃ t, Tree.ofLeaves combine leaves = .ok t ∧
      (∀ leaf count, leaf < count → count ≤ leaves.length →
        ∃ value root steps, leaves[leaf]? = some value ∧
          listRoot combine (leaves.take count) = some root ∧
          t.rootAt combine count = .ok root ∧
          t.inclusionProof combine leaf count = .ok steps ∧
          inclusionHolds combine value root steps = true) ∧
      ∀ leaf count e, t.inclusionProof combine leaf count = .error e ↔
        leaves.length < count ∧ e = .missingLeaves count leaves.length ∨
        count ≤ leaves.length ∧ count ≤ leaf ∧ e = .leafOutOfRange leaf count := by
  have htop := lt_topLeaf hlen
  refine ⟨treeOf combine leaves, ofLeaves_eq leaves, ?_, fun _ _ _ => inclusionProof_eq_error htop⟩
  intro leaf count hleaf hcount
  have hcountTop := hcount.trans_lt htop
  obtain ⟨root, hroot, hrootAt⟩ :=
    rootAt_treeOf combine hcountTop (Nat.zero_lt_of_lt hleaf) hcount
  obtain ⟨first, rest, hproof, hfirst, hfold⟩ :=
    inclusionProof_treeOf combine hcountTop hleaf hcount
  rw [hroot] at hfold
  refine ⟨first.entry, root, first :: rest, hfirst, hroot, hrootAt, hproof, ?_⟩
  simp [inclusionHolds, Option.some.inj hfold]

/-- The first leaf at seven of eight leaves: its sibling at height two is there
only in part. -/
theorem inclusionProof_first_of_seven :
    ([0, 1, 2, 3, 4, 5, 6, 7].map FreeMagma.of).length < 2 ^ 63 ∧
      ∃ t, Tree.ofLeaves (fun a b : FreeMagma Nat => a * b)
          ([0, 1, 2, 3, 4, 5, 6, 7].map FreeMagma.of) = .ok t ∧
        (∃ value root steps,
          ([0, 1, 2, 3, 4, 5, 6, 7].map FreeMagma.of)[0]? = some value ∧
          listRoot (fun a b => a * b)
            (([0, 1, 2, 3, 4, 5, 6, 7].map FreeMagma.of).take 7) = some root ∧
          t.rootAt (fun a b => a * b) 7 = .ok root ∧
          t.inclusionProof (fun a b => a * b) 0 7 = .ok steps ∧
          inclusionHolds (fun a b => a * b) value root steps = true) ∧
        t.inclusionProof (fun a b => a * b) 0 9 = .error (.missingLeaves 9 8) ∧
        t.inclusionProof (fun a b => a * b) 5 5 = .error (.leafOutOfRange 5 5) := by
  have hlen : ([0, 1, 2, 3, 4, 5, 6, 7].map FreeMagma.of).length < 2 ^ 63 := by decide
  obtain ⟨t, ht, hproof, herror⟩ :=
    inclusionProof_complete (fun a b : FreeMagma Nat => a * b) hlen
  exact ⟨hlen, t, ht, hproof 0 7 (by decide) (by decide),
    (herror 0 9 _).mpr (.inl ⟨by decide, rfl⟩),
    (herror 5 5 _).mpr (.inr ⟨by decide, by decide, rfl⟩)⟩

/-- For every two counts in order a tree has a proof, which holds against the
roots at them: its steps on the left lead to the older root and all of them to
the newer. For any other pair it says what is wrong. -/
theorem consistencyProof_complete (combine : α → α → α) {leaves : List α}
    (hlen : leaves.length < 2 ^ 63) :
    ∃ t, Tree.ofLeaves combine leaves = .ok t ∧
      (∀ old new, 1 ≤ old → old ≤ new → new ≤ leaves.length →
        ∃ before after first rest, listRoot combine (leaves.take old) = some before ∧
          listRoot combine (leaves.take new) = some after ∧
          t.rootAt combine old = .ok before ∧ t.rootAt combine new = .ok after ∧
          t.consistencyProof combine old new = .ok (first :: rest) ∧
          (rest.filter (·.onLeft)).foldl (Step.apply combine) first.entry = before ∧
          rest.foldl (Step.apply combine) first.entry = after ∧
          consistencyHolds combine before after (first :: rest) = true) ∧
      ∀ old new e, t.consistencyProof combine old new = .error e ↔
        leaves.length < new ∧ e = .missingLeaves new leaves.length ∨
        new ≤ leaves.length ∧ (old = 0 ∨ new < old) ∧ e = .invalidRange old new := by
  have htop := lt_topLeaf hlen
  refine ⟨treeOf combine leaves, ofLeaves_eq leaves, ?_,
    fun _ _ _ => consistencyProof_eq_error htop⟩
  intro old new hold hle hnew
  have hnewTop := hnew.trans_lt htop
  obtain ⟨before, hbefore, hbeforeAt⟩ :=
    rootAt_treeOf combine (hle.trans_lt hnewTop) hold (hle.trans hnew)
  obtain ⟨after, hafter, hafterAt⟩ := rootAt_treeOf combine hnewTop (hold.trans hle) hnew
  obtain ⟨first, rest, hproof, holder, hnewer⟩ :=
    consistencyProof_treeOf combine hnewTop hold hle hnew
  rw [hbefore] at holder
  rw [hafter] at hnewer
  have hfilter := (Option.some.inj holder).symm
  have hall := (Option.some.inj hnewer).symm
  refine ⟨before, after, first, rest, hbefore, hafter, hbeforeAt, hafterAt, hproof, hfilter, hall,
    ?_⟩
  simp [consistencyHolds, hfilter, hall]

/-- From three leaves to seven of eight: the climb starts at the third leaf and
meets siblings on both sides, the last of them there only in part. -/
theorem consistencyProof_three_seven :
    ([0, 1, 2, 3, 4, 5, 6, 7].map FreeMagma.of).length < 2 ^ 63 ∧
      ∃ t, Tree.ofLeaves (fun a b : FreeMagma Nat => a * b)
          ([0, 1, 2, 3, 4, 5, 6, 7].map FreeMagma.of) = .ok t ∧
        (∃ before after first rest,
          listRoot (fun a b => a * b)
            (([0, 1, 2, 3, 4, 5, 6, 7].map FreeMagma.of).take 3) = some before ∧
          listRoot (fun a b => a * b)
            (([0, 1, 2, 3, 4, 5, 6, 7].map FreeMagma.of).take 7) = some after ∧
          t.rootAt (fun a b => a * b) 3 = .ok before ∧ t.rootAt (fun a b => a * b) 7 = .ok after ∧
          t.consistencyProof (fun a b => a * b) 3 7 = .ok (first :: rest) ∧
          (rest.filter (·.onLeft)).foldl (Step.apply (fun a b => a * b)) first.entry = before ∧
          rest.foldl (Step.apply (fun a b => a * b)) first.entry = after ∧
          consistencyHolds (fun a b => a * b) before after (first :: rest) = true) ∧
        t.consistencyProof (fun a b => a * b) 3 9 = .error (.missingLeaves 9 8) ∧
        t.consistencyProof (fun a b => a * b) 0 7 = .error (.invalidRange 0 7) := by
  have hlen : ([0, 1, 2, 3, 4, 5, 6, 7].map FreeMagma.of).length < 2 ^ 63 := by decide
  obtain ⟨t, ht, hproof, herror⟩ :=
    consistencyProof_complete (fun a b : FreeMagma Nat => a * b) hlen
  exact ⟨hlen, t, ht, hproof 3 7 (by decide) (by decide) (by decide),
    (herror 3 9 _).mpr (.inl ⟨by decide, rfl⟩),
    (herror 0 7 _).mpr (.inr ⟨by decide, .inl rfl, rfl⟩)⟩

end TamperEvident
