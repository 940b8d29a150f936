import TamperEvident.Proofs.Merkle.Peaks

/-! What a tree answers once a list of leaves was appended to it: its levels,
its stored nodes, its frontier and its root. -/

namespace TamperEvident

variable {α : Type} {combine : α → α → α}

theorem treeOf_nil : treeOf combine [] = Tree.empty := by
  simp [treeOf, pairUp, levelsAbove_nil, frontierOf_nil, Tree.empty]

theorem ofLeaves_eq (leaves : List α) :
    Tree.ofLeaves combine leaves = .ok (treeOf combine leaves) := by
  induction leaves using List.reverseRecOn with
  | nil =>
    rw [treeOf_nil]
    rfl
  | append_singleton leaves leaf ih =>
    obtain ⟨nodes, hpush⟩ := push_treeOf combine leaves leaf
    rw [Tree.ofLeaves] at ih
    rw [Tree.ofLeaves, List.foldlM_append, ih]
    simp only [bind, Except.bind, List.foldlM_cons, List.foldlM_nil, hpush]
    rfl

def Tree.pushAll (combine : α → α → α) (t : Tree α) :
    List α → Except MerkleError (List (Node × α) × Tree α)
  | [] => .ok ([], t)
  | leaf :: leaves => do
    let (nodes, grown) ← t.push combine leaf
    let (more, last) ← grown.pushAll combine leaves
    return (nodes ++ more, last)

theorem pushAll_treeOf (combine : α → α → α) (leaves more : List α) :
    ∃ nodes, (treeOf combine leaves).pushAll combine more =
      .ok (nodes, treeOf combine (leaves ++ more)) := by
  induction more generalizing leaves with
  | nil => exact ⟨[], by rw [List.append_nil]; rfl⟩
  | cons leaf more ih =>
    obtain ⟨nodes, hpush⟩ := push_treeOf combine leaves leaf
    obtain ⟨rest, hrest⟩ := ih (leaves ++ [leaf])
    refine ⟨nodes ++ rest, ?_⟩
    rw [List.append_assoc, List.singleton_append] at hrest
    simp only [Tree.pushAll, hpush, hrest, bind, Except.bind, pure, Except.pure]

def Tree.width (t : Tree α) (height : Nat) : Nat := (t.levels[height]?.map Array.size).getD 0

theorem level_nil (height : Nat) : level combine [] height = [] := by
  rw [← List.length_eq_zero_iff, length_level, List.length_nil, Nat.zero_div]

theorem getD_levelsAbove (leaves : List α) (height : Nat) :
    (levelsAbove combine leaves)[height]?.getD #[] = (level combine leaves height).toArray := by
  induction height generalizing leaves with
  | zero =>
    by_cases hnil : leaves = []
    · rw [hnil, levelsAbove_nil, level_nil]
      rfl
    · rw [levelsAbove_of_ne_nil hnil]
      rfl
  | succ height ih =>
    rw [← level_pairUp, ← ih]
    by_cases hnil : leaves = []
    · rw [hnil, pairUp, levelsAbove_nil]
      rfl
    · rw [levelsAbove_of_ne_nil hnil, List.getElem?_cons_succ]

theorem getD_levels_treeOf (leaves : List α) (height : Nat) :
    (treeOf combine leaves).levels[height]?.getD #[] =
      (level combine leaves height).toArray := by
  cases height with
  | zero => rfl
  | succ height =>
    rw [← level_pairUp, ← getD_levelsAbove]
    rfl

theorem width_eq_size (t : Tree α) (height : Nat) :
    t.width height = (t.levels[height]?.getD #[]).size := by
  rw [Tree.width]
  cases t.levels[height]? <;> rfl

theorem width_treeOf (leaves : List α) (height : Nat) :
    (treeOf combine leaves).width height = leaves.length / 2 ^ height := by
  rw [width_eq_size, getD_levels_treeOf, List.size_toArray, length_level]

theorem stored_eq_getD (t : Tree α) (n : Node) :
    t.stored n = match (t.levels[n.height]?.getD #[])[n.index]? with
      | some value => .ok value
      | none => .error (.missingNode n.height n.index) := by
  rw [Tree.stored]
  cases t.levels[n.height]? <;> rfl

theorem stored_treeOf (leaves : List α) (n : Node) :
    (treeOf combine leaves).stored n =
      match perfectRoot combine n.height (slice leaves n.start n.stop) with
      | some value => .ok value
      | none => .error (.missingNode n.height n.index) := by
  rw [stored_eq_getD, getD_levels_treeOf, List.getElem?_toArray, getElem?_level]
  rfl

theorem exists_perfectRoot (combine : α → α → α) {height : Nat} {leaves : List α}
    (h : leaves.length = 2 ^ height) :
    ∃ root, perfectRoot combine height leaves = some root := by
  have hne := List.length_pos_iff.mp (h ▸ Nat.two_pow_pos height)
  rw [perfectRoot_eq_listRoot h]
  exact exists_listRoot combine hne

theorem stored_complete (combine : α → α → α) {leaves : List α} {n : Node}
    (h : n.stop ≤ leaves.length) :
    ∃ value, perfectRoot combine n.height (slice leaves n.start n.stop) = some value ∧
      (treeOf combine leaves).stored n = .ok value := by
  obtain ⟨value, hvalue⟩ := exists_perfectRoot combine (length_slice_node h)
  refine ⟨value, hvalue, ?_⟩
  rw [stored_treeOf, hvalue]

theorem stored_of_lt {leaves : List α} {height i : Nat} (h : i < leaves.length / 2 ^ height) :
    ∃ value, perfectRoot combine height (slice leaves (i * 2 ^ height) ((i + 1) * 2 ^ height)) =
        some value ∧ (treeOf combine leaves).stored ⟨height, i⟩ = .ok value :=
  stored_complete combine (n := ⟨height, i⟩) ((Nat.le_div_iff_mul_le (Nat.two_pow_pos height)).mp h)

theorem stored_of_le {leaves : List α} {height i : Nat} (h : leaves.length / 2 ^ height ≤ i) :
    (treeOf combine leaves).stored ⟨height, i⟩ = .error (.missingNode height i) := by
  have hnone : (level combine leaves height)[i]? = none :=
    List.getElem?_eq_none (by rwa [length_level])
  rw [getElem?_level] at hnone
  rw [stored_treeOf]
  simp only [Node.start, Node.stop, hnone]

theorem stored_leaf {leaves : List α} {i : Nat} {leaf : α} (h : leaves[i]? = some leaf) :
    (treeOf combine leaves).stored (.leaf i) = .ok leaf := by
  simp [Tree.stored, treeOf, Node.leaf, h]

theorem root_treeOf (leaves : List α) :
    (treeOf combine leaves).root combine = listRoot combine leaves := root_frontierOf leaves

/-- A tree fed a list of leaves one by one holds every complete node over them
and nothing else; its frontier is the binary decomposition of their number, and
its root is the root of the list. -/
theorem tree_after_appends (combine : α → α → α) (leaves : List α) :
    ∃ t, Tree.ofLeaves combine leaves = .ok t ∧
      t.count = leaves.length ∧
      (∀ height, t.width height = leaves.length / 2 ^ height) ∧
      (∀ height i, i < leaves.length / 2 ^ height →
        ∃ value, perfectRoot combine height
            (slice leaves (i * 2 ^ height) ((i + 1) * 2 ^ height)) = some value ∧
          t.stored ⟨height, i⟩ = .ok value) ∧
      (∀ height i, leaves.length / 2 ^ height ≤ i →
        t.stored ⟨height, i⟩ = .error (.missingNode height i)) ∧
      t.frontier.map some = (peaks leaves.length).map (fun n =>
        perfectRoot combine n.height (slice leaves n.start n.stop)) ∧
      t.frontier.length = popCount leaves.length ∧
      (leaves = [] → t.root combine = none) ∧
      (leaves ≠ [] →
        ∃ root, listRoot combine leaves = some root ∧ t.root combine = some root) := by
  have hroot : (treeOf combine leaves).root combine = listRoot combine leaves :=
    root_treeOf leaves
  refine ⟨treeOf combine leaves, ofLeaves_eq leaves, count_treeOf leaves, width_treeOf leaves,
    fun _ _ => stored_of_lt, fun _ _ => stored_of_le, frontierOf_peaks combine leaves,
    length_frontierOf leaves, ?_, ?_⟩
  · rintro rfl
    rw [hroot, listRoot_nil]
  · intro hne
    obtain ⟨root, h⟩ := exists_listRoot combine hne
    exact ⟨root, h, hroot.trans h⟩

end TamperEvident
