import TamperEvident.Proofs.Merkle.Appended
import TamperEvident.Proofs.Merkle.Atomicity
import TamperEvident.Proofs.Merkle.Carry

/-! When a tree takes the next leaf. A push looks at the frontier and at the levels that the
leaf completes a node of, so a tree that was not made by pushes may take some and then fail. -/

namespace TamperEvident

variable {α : Type} {combine : α → α → α} {t t' : Tree α} {nodes : List (Node × α)}

theorem exists_place (height index : Nat) (value : α) (levels : List (Array α)) :
    (∃ grown, Tree.place height index value levels = some grown) ↔
      height ≤ levels.length ∧ (levels[height]?.map Array.size).getD 0 = index := by
  rw [place_eq, InPlace.opened]
  dsimp only
  rcases Nat.lt_trichotomy height levels.length with hlt | rfl | hgt
  · rw [if_neg (Nat.ne_of_gt hlt), List.getElem?_eq_getElem hlt]
    simp [Nat.le_of_lt hlt]
  · simp
  · rw [if_neg (Nat.ne_of_lt hgt), List.getElem?_eq_none (Nat.le_of_lt hgt)]
    simp [Nat.not_le_of_lt hgt]

theorem exists_insertNode (t : Tree α) (entry : Node × α) :
    (∃ t', t.insertNode entry = .ok t') ↔
      entry.1.height ≤ t.levels.length ∧ t.width entry.1.height = entry.1.index := by
  rw [Tree.width, ← exists_place _ _ entry.2]
  constructor
  · rintro ⟨t', h⟩
    obtain ⟨levels, hplace, _⟩ := insertNode_eq_ok.mp h
    exact ⟨levels, hplace⟩
  · rintro ⟨levels, hplace⟩
    exact ⟨_, insertNode_eq_ok.mpr ⟨levels, hplace, rfl⟩⟩

theorem width_insertNode {entry : Node × α} (h : t.insertNode entry = .ok t') :
    entry.1.height < t'.levels.length ∧ ∀ height,
      t'.width height = t.width height + if height = entry.1.height then 1 else 0 := by
  obtain ⟨levels, hplace, rfl⟩ := insertNode_eq_ok.mp h
  obtain ⟨_, hlength, hall⟩ := getD_place hplace
  refine ⟨hlength, fun height => ?_⟩
  rw [width_eq_size, width_eq_size, hall]
  by_cases hheight : height = entry.1.height
  · rw [if_pos hheight, if_pos hheight, Array.size_push, hheight]
  · rw [if_neg hheight, if_neg hheight, Nat.add_zero]

theorem width_insertPerfected (h : t.insertPerfected nodes = .ok t') (height : Nat) :
    t'.width height = t.width height + (nodes.map Prod.fst).countP fun n => n.height = height := by
  refine insertPerfected_induction ?_ ?_ h
  · rfl
  · intro t entry grown nodes hentry hrest
    rw [hrest, (width_insertNode hentry).2, List.map_cons, List.countP_cons]
    simp only [decide_eq_true_eq, eq_comm (a := height)]
    omega

/-- Nodes one above the other find room if each is the next one of its level. -/
theorem exists_insertPerfected_climb {start number : Nat} {index : Nat → Nat}
    (hnodes : nodes.map Prod.fst = (List.range' start number).map fun k => ⟨k, index k⟩)
    (hroom : start ≤ t.levels.length) : (∃ t', t.insertPerfected nodes = .ok t') ↔
      ∀ k, start ≤ k → k < start + number → t.width k = index k := by
  induction number generalizing t nodes start with
  | zero =>
    obtain rfl : nodes = [] := by simpa using hnodes
    refine iff_of_true ⟨t, rfl⟩ fun k hle hlt => ?_
    omega
  | succ number ih =>
    cases nodes with
    | nil => simp [List.range'_succ] at hnodes
    | cons entry rest =>
      rw [List.map_cons, List.range'_succ, List.map_cons, List.cons.injEq] at hnodes
      obtain ⟨hentry, hrest⟩ := hnodes
      have hfirst := exists_insertNode t entry
      rw [hentry] at hfirst
      constructor
      · rintro ⟨t', h⟩ k hle hlt
        rw [Tree.insertPerfected, List.foldlM_cons] at h
        obtain ⟨grown, hgrown, hstored⟩ := bind_eq_ok.mp h
        obtain ⟨hheight, hwidth⟩ := width_insertNode hgrown
        rw [hentry] at hheight hwidth
        dsimp only at hheight hwidth
        by_cases hk : k = start
        · rw [hk]
          exact (hfirst.mp ⟨grown, hgrown⟩).2
        · have habove := (ih hrest hheight).mp ⟨t', hstored⟩ k (by omega) (by omega)
          rwa [hwidth, if_neg hk, Nat.add_zero] at habove
      · intro hwidths
        obtain ⟨grown, hgrown⟩ := hfirst.mpr ⟨hroom, hwidths start (by omega) (by omega)⟩
        obtain ⟨hheight, hwidth⟩ := width_insertNode hgrown
        rw [hentry] at hheight hwidth
        dsimp only at hheight hwidth
        have habove : ∀ k, start + 1 ≤ k → k < start + 1 + number → grown.width k = index k := by
          intro k hle hlt
          rw [hwidth, if_neg (by omega), Nat.add_zero]
          exact hwidths k (by omega) (by omega)
        obtain ⟨t', hstored⟩ := (ih hrest hheight).mpr habove
        refine ⟨t', ?_⟩
        rw [insertPerfected_cons hgrown, hstored]

theorem countP_endingAt (count height : Nat) :
    (endingAt count).countP (fun n => n.height = height) =
      if 2 ^ height ∣ count + 1 then 1 else 0 := by
  have hheights : (endingAt count).countP (fun n => n.height = height) =
      (List.range (trailingOnes count + 1)).count height := by
    rw [endingAt, List.countP_map, List.count]
    exact List.countP_congr fun k _ => by simp
  rw [hheights]
  by_cases hdvd : 2 ^ height ∣ count + 1
  · have hlt := Nat.lt_succ_of_le (le_trailingOnes_iff.mpr hdvd)
    rw [if_pos hdvd, List.count_eq_one_of_mem List.nodup_range (List.mem_range.mpr hlt)]
  · rw [if_neg hdvd, List.count_eq_zero]
    intro hmem
    exact hdvd (le_trailingOnes_iff.mp (Nat.le_of_lt_succ (List.mem_range.mp hmem)))

/-- A push needs a subtree in the frontier for each one of the count, and each node that its
leaf completes to be the next one of its level. -/
theorem exists_push (combine : α → α → α) (t : Tree α) (leaf : α) :
    (∃ nodes t', t.push combine leaf = .ok (nodes, t')) ↔
      t.frontier.length = popCount t.count ∧
        ∀ height, 2 ^ height ∣ t.count + 1 → t.width height = t.count / 2 ^ height := by
  constructor
  · rintro ⟨nodes, t', h⟩
    obtain ⟨frontier, stored, happend, hstored, _⟩ := push_eq_ok.mp h
    obtain ⟨hsize, hnodes, _⟩ := Frontier.of_append happend
    rw [endingAt, List.range_eq_range'] at hnodes
    have hwidths := (exists_insertPerfected_climb hnodes (Nat.zero_le _)).mp ⟨stored, hstored⟩
    refine ⟨hsize, fun height hdvd => ?_⟩
    have hle := le_trailingOnes_iff.mpr hdvd
    exact hwidths height (Nat.zero_le _) (by omega)
  · rintro ⟨hsize, hwidths⟩
    obtain ⟨nodes, frontier, happend⟩ := Frontier.exists_append combine leaf hsize
    have hnodes := (Frontier.of_append happend).2.1
    rw [endingAt, List.range_eq_range'] at hnodes
    obtain ⟨stored, hstored⟩ := (exists_insertPerfected_climb hnodes (Nat.zero_le _)).mpr
      fun height _ hlt => hwidths height (le_trailingOnes_iff.mp (by omega))
    exact ⟨nodes, _, push_eq_ok.mpr ⟨frontier, stored, happend, hstored, rfl⟩⟩

theorem of_push {leaf : α} (h : t.push combine leaf = .ok (nodes, t')) :
    t'.frontier.length = popCount (t.count + 1) ∧ ∀ height,
      t'.width height = t.width height + if 2 ^ height ∣ t.count + 1 then 1 else 0 := by
  obtain ⟨frontier, stored, happend, hstored, rfl⟩ := push_eq_ok.mp h
  refine ⟨Frontier.length_append happend, fun height => ?_⟩
  have hwidth := width_insertPerfected hstored height
  rw [(Frontier.of_append happend).2.1, countP_endingAt] at hwidth
  exact hwidth

/-- The frontier and all levels are as long as they are after as many pushes. -/
structure Tree.Settled (t : Tree α) : Prop where
  frontier : t.frontier.length = popCount t.count
  width : ∀ height, t.width height = t.count / 2 ^ height

theorem count_eq_width (t : Tree α) : t.count = t.width 0 := rfl

theorem count_push {leaf : α} (h : t.push combine leaf = .ok (nodes, t')) :
    t'.count = t.count + 1 := by
  rw [count_eq_width, (of_push h).2 0, Nat.pow_zero, if_pos (Nat.one_dvd _), count_eq_width]

theorem settled_treeOf (leaves : List α) : (treeOf combine leaves).Settled where
  frontier := length_frontierOf leaves
  width := width_treeOf leaves

theorem Tree.Settled.push (h : t.Settled) (combine : α → α → α) (leaf : α) :
    ∃ nodes t', t.push combine leaf = .ok (nodes, t') ∧ t'.Settled := by
  obtain ⟨nodes, t', hpush⟩ :=
    (exists_push combine t leaf).mpr ⟨h.frontier, fun height _ => h.width height⟩
  obtain ⟨hfrontier, hwidth⟩ := of_push hpush
  have hcount := count_push hpush
  refine ⟨nodes, t', hpush, ?_, fun height => ?_⟩
  · rw [hcount, hfrontier]
  · rw [hwidth, h.width, hcount, Nat.succ_div]

/-- A tree that takes leaves without end is settled. What grows may hold more than the tree. -/
theorem settled_of_pushes {σ : Type} {tree : σ → Tree α} {Grows : σ → Prop}
    (hgrows : ∀ s, Grows s → ∃ leaf nodes s',
      (tree s).push combine leaf = .ok (nodes, tree s') ∧ Grows s')
    {s : σ} (h : Grows s) : (tree s).Settled := by
  refine ⟨?_, fun height => ?_⟩
  · obtain ⟨leaf, nodes, s', hpush, _⟩ := hgrows s h
    exact ((exists_push combine (tree s) leaf).mp ⟨nodes, tree s', hpush⟩).1
  · -- Until the next node of the level is complete, nothing is added to the level.
    have hmod := Nat.div_add_mod (tree s).count (2 ^ height)
    have hlt := Nat.mod_lt (tree s).count (Nat.two_pow_pos height)
    obtain ⟨left, hleft⟩ : ∃ left,
        2 ^ height * ((tree s).count / 2 ^ height + 1) = (tree s).count + 1 + left :=
      Nat.exists_eq_add_of_le (by rw [Nat.mul_add, Nat.mul_one]; omega)
    clear hmod hlt
    induction left generalizing s with
    | zero =>
      obtain ⟨leaf, nodes, s', hpush, _⟩ := hgrows s h
      exact ((exists_push combine (tree s) leaf).mp ⟨nodes, tree s', hpush⟩).2 height
        ⟨_, hleft.symm⟩
    | succ left ih =>
      obtain ⟨leaf, nodes, s', hpush, hs'⟩ := hgrows s h
      by_cases hdvd : 2 ^ height ∣ (tree s).count + 1
      · exact ((exists_push combine (tree s) leaf).mp ⟨nodes, tree s', hpush⟩).2 height hdvd
      · have hdiv := Nat.succ_div_of_not_dvd hdvd
        have hwidth := (of_push hpush).2 height
        have hnext := ih hs' (by rw [count_push hpush, hdiv, hleft]; omega)
        rw [count_push hpush, hdiv, hwidth, if_neg hdvd] at hnext
        exact hnext

end TamperEvident
