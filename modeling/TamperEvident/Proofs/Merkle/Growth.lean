import TamperEvident.Merkle.Tree
import TamperEvident.Proofs.Merkle.PerfectRoot

/-! What a tree holds after its leaves were appended one by one. An append to a
list of even length touches its own level only; one to a list of odd length
joins the last two entries and is an append of the join one level up. -/

namespace TamperEvident

variable {α : Type} (combine : α → α → α)

/-- The levels of complete nodes from a list upwards, as far as any are complete. -/
def levelsAbove (leaves : List α) : List (Array α) :=
  if leaves = [] then [] else leaves.toArray :: levelsAbove (pairUp combine leaves)
termination_by leaves.length
decreasing_by
  rename_i h
  have := List.length_pos_iff.mpr h
  rw [length_pairUp]
  omega

def frontierOf (leaves : List α) : List α :=
  if leaves = [] then []
  else if leaves.length % 2 = 1 then
    leaves.getLast?.toList ++ frontierOf (pairUp combine leaves)
  else frontierOf (pairUp combine leaves)
termination_by leaves.length
decreasing_by
  all_goals
    rename_i h _
    have := List.length_pos_iff.mpr h
    rw [length_pairUp]
    omega

/-- The tree of a list of leaves. The lowest level is there from the start. -/
def treeOf (leaves : List α) : Tree α :=
  ⟨leaves.toArray :: levelsAbove combine (pairUp combine leaves), frontierOf combine leaves⟩

def Tree.ofLeaves (leaves : List α) : Except MerkleError (Tree α) :=
  leaves.foldlM (fun t leaf => Prod.snd <$> t.push combine leaf) .empty

variable {combine}

theorem levelsAbove_nil : levelsAbove combine [] = [] := by
  rw [levelsAbove, if_pos rfl]

theorem levelsAbove_of_ne_nil {leaves : List α} (h : leaves ≠ []) :
    levelsAbove combine leaves =
      leaves.toArray :: levelsAbove combine (pairUp combine leaves) := by
  rw [levelsAbove, if_neg h]

theorem levelsAbove_concat (leaves : List α) (last : α) :
    levelsAbove combine (leaves ++ [last]) =
      (leaves ++ [last]).toArray :: levelsAbove combine (pairUp combine (leaves ++ [last])) :=
  levelsAbove_of_ne_nil (by simp)

theorem frontierOf_nil : frontierOf combine [] = [] := by
  rw [frontierOf, if_pos rfl]

theorem frontierOf_even {leaves : List α} (h : leaves.length % 2 = 0) :
    frontierOf combine leaves = frontierOf combine (pairUp combine leaves) := by
  by_cases hnil : leaves = []
  · rw [hnil, pairUp]
  · rw [frontierOf, if_neg hnil, if_neg (by omega)]

theorem frontierOf_odd {leaves : List α} (h : leaves.length % 2 = 0) (last : α) :
    frontierOf combine (leaves ++ [last]) = last :: frontierOf combine (pairUp combine leaves) := by
  have hlen : (leaves ++ [last]).length % 2 = 1 := by
    rw [List.length_append, List.length_singleton]
    omega
  rw [frontierOf, if_neg (by simp), if_pos hlen, List.getLast?_concat, pairUp_append h, pairUp,
    List.append_nil]
  rfl

theorem pairUp_concat {leaves : List α} (h : leaves.length % 2 = 0) (last : α) :
    pairUp combine (leaves ++ [last]) = pairUp combine leaves := by
  rw [pairUp_append h, pairUp, List.append_nil]

theorem pairUp_concat_concat {leaves : List α} (h : leaves.length % 2 = 0) (last next : α) :
    pairUp combine (leaves ++ [last] ++ [next]) =
      pairUp combine leaves ++ [combine last next] := by
  rw [List.append_assoc, pairUp_append h]
  rfl

/-- Induction from one level to the next, by whether an entry has no partner. -/
theorem levelInduction {motive : List α → Prop} (combine : α → α → α) (nil : motive [])
    (even : ∀ l, l ≠ [] → l.length % 2 = 0 → motive (pairUp combine l) → motive l)
    (odd : ∀ l last, l.length % 2 = 0 → motive (pairUp combine l) → motive (l ++ [last]))
    (l : List α) : motive l := by
  induction hn : l.length using Nat.strongRecOn generalizing l with
  | ind n ih =>
    cases l using List.reverseRecOn with
    | nil => exact nil
    | append_singleton l last =>
      have hlen : (l ++ [last]).length = l.length + 1 := List.length_append
      have hpair : ∀ l' : List α, l' ≠ [] → (pairUp combine l').length < l'.length := by
        intro l' hl'
        have := List.length_pos_iff.mpr hl'
        rw [length_pairUp]
        omega
      by_cases hodd : l.length % 2 = 0
      · have hlt := hpair (l ++ [last]) (by simp)
        rw [pairUp_concat hodd] at hlt
        exact odd l last hodd (ih _ (by omega) _ rfl)
      · exact even _ (by simp) (by omega) (ih _ (hn ▸ hpair _ (by simp)) _ rfl)

theorem popCount_zero : popCount 0 = 0 := by rw [popCount, if_pos rfl]

theorem popCount_double (n : Nat) : popCount (2 * n) = popCount n := by
  cases n with
  | zero => rfl
  | succ n =>
    rw [popCount, if_neg (by omega), Nat.mul_mod_right, Nat.zero_add,
      Nat.mul_div_cancel_left _ (by omega)]

theorem popCount_double_add_one (n : Nat) : popCount (2 * n + 1) = popCount n + 1 := by
  rw [popCount, if_neg (by omega), Nat.mul_add_mod, Nat.mul_add_div (by omega), Nat.add_comm]
  rfl

theorem length_frontierOf (leaves : List α) :
    (frontierOf combine leaves).length = popCount leaves.length := by
  induction leaves using levelInduction combine with
  | nil => rw [frontierOf_nil, List.length_nil, popCount_zero]
  | even l _ heven ih =>
    rw [frontierOf_even heven, ih, length_pairUp, ← popCount_double, Nat.mul_div_cancel' (by omega)]
  | odd l last heven ih =>
    have hl : (l ++ [last]).length = 2 * (l.length / 2) + 1 := by
      rw [List.length_append, List.length_singleton]
      omega
    rw [frontierOf_odd heven, List.length_cons, ih, length_pairUp, hl, popCount_double_add_one]

theorem place_append (below above : List (Array α)) (index : Nat) (value : α) :
    Tree.place below.length index value (below ++ above) =
      (Tree.place 0 index value above).map (below ++ ·) := by
  induction below with
  | nil => simp
  | cons level below ih =>
    rw [List.length_cons, List.cons_append, Tree.place, ih, Option.map_map]
    rfl

theorem place_next (entries : List α) (value : α) :
    Tree.place 0 entries.length value (levelsAbove combine entries) =
      some ((entries ++ [value]).toArray :: levelsAbove combine (pairUp combine entries)) := by
  by_cases hnil : entries = []
  · subst hnil
    rw [pairUp, levelsAbove_nil]
    rfl
  · rw [levelsAbove_of_ne_nil hnil, Tree.place, List.size_toArray, if_pos rfl, List.push_toArray]

theorem insertNode_next (below : List (Array α)) (frontier entries : List α) (value : α) :
    Tree.insertNode ⟨below ++ levelsAbove combine entries, frontier⟩
        (⟨below.length, entries.length⟩, value) =
      .ok ⟨below ++ (entries ++ [value]).toArray ::
        levelsAbove combine (pairUp combine entries), frontier⟩ := by
  simp only [Tree.insertNode, place_append, place_next, Option.map_some]

theorem carry_left {n : Node} (h : n.isRight = false) (value : α) (frontier : List α) :
    Frontier.carry combine n value frontier = ([], value :: frontier) := by
  cases frontier with
  | nil => rfl
  | cons left rest => simp [Frontier.carry, h]

theorem insertPerfected_cons {t t' : Tree α} {entry : Node × α} (h : t.insertNode entry = .ok t')
    (nodes : List (Node × α)) : t.insertPerfected (entry :: nodes) = t'.insertPerfected nodes := by
  rw [Tree.insertPerfected, List.foldlM_cons, h]
  rfl

theorem carry_right {n : Node} (h : n.isRight = true) (value left : α) (frontier : List α) :
    Frontier.carry combine n value (left :: frontier) =
      let above := Frontier.carry combine n.parent (combine left value) frontier
      ((n.parent, combine left value) :: above.1, above.2) := by
  simp [Frontier.carry, h]

theorem carry_next_even (combine : α → α → α) {entries : List α} (h : entries.length % 2 = 0)
    (value : α) (below : List (Array α)) (frontier : List α) :
    Frontier.carry combine ⟨below.length, entries.length⟩ value (frontierOf combine entries) =
        ([], frontierOf combine (entries ++ [value])) ∧
      Tree.insertPerfected ⟨below ++ levelsAbove combine entries, frontier⟩
          [(⟨below.length, entries.length⟩, value)] =
        .ok ⟨below ++ levelsAbove combine (entries ++ [value]), frontier⟩ := by
  constructor
  · rw [carry_left (by simp [Node.isRight, h]), frontierOf_odd h, frontierOf_even h]
  · rw [insertPerfected_cons (insertNode_next ..), levelsAbove_concat, pairUp_concat h]
    rfl

/-- An entry added to a level completes nodes up to the first level of even
length. The carry gives the frontier and the levels of the longer list. -/
theorem carry_next (combine : α → α → α) (entries : List α) (value : α)
    (below : List (Array α)) (frontier : List α) :
    ∃ nodes, Frontier.carry combine ⟨below.length, entries.length⟩ value
          (frontierOf combine entries) = (nodes, frontierOf combine (entries ++ [value])) ∧
      Tree.insertPerfected ⟨below ++ levelsAbove combine entries, frontier⟩
          ((⟨below.length, entries.length⟩, value) :: nodes) =
        .ok ⟨below ++ levelsAbove combine (entries ++ [value]), frontier⟩ := by
  induction entries using levelInduction combine generalizing value below with
  | nil => exact ⟨[], carry_next_even combine rfl value below frontier⟩
  | even l _ heven _ => exact ⟨[], carry_next_even combine heven value below frontier⟩
  | odd l last heven ih =>
    have hlen : (l ++ [last]).length = l.length + 1 := List.length_append
    have hright : (⟨below.length, (l ++ [last]).length⟩ : Node).isRight = true := by
      simp only [Node.isRight, hlen, beq_iff_eq]
      omega
    have hparent : (⟨below.length, (l ++ [last]).length⟩ : Node).parent =
        ⟨below.length + 1, (pairUp combine l).length⟩ := by
      simp only [Node.parent, hlen, length_pairUp, Node.mk.injEq, true_and]
      omega
    have heven' : (l ++ [last] ++ [value]).length % 2 = 0 := by
      rw [List.length_append, hlen, List.length_singleton]
      omega
    -- The level that is passed goes below, with the value at its end.
    obtain ⟨nodes, hcarry, hstore⟩ :=
      ih (combine last value) (below ++ [(l ++ [last] ++ [value]).toArray])
    rw [List.length_append, List.length_singleton] at hcarry hstore
    refine ⟨(⟨below.length + 1, (pairUp combine l).length⟩, combine last value) :: nodes, ?_, ?_⟩
    · rw [frontierOf_odd heven, carry_right hright, hparent, hcarry, frontierOf_even heven',
        pairUp_concat_concat heven]
    · rw [insertPerfected_cons (insertNode_next ..), pairUp_concat heven,
        levelsAbove_concat _ value, pairUp_concat_concat heven]
      simpa only [List.append_assoc, List.singleton_append] using hstore

theorem count_treeOf (leaves : List α) : (treeOf combine leaves).count = leaves.length := rfl

theorem insertPerfected_treeOf {leaves : List α} (hnil : leaves ≠ []) (nodes : List (Node × α)) :
    (treeOf combine leaves).insertPerfected nodes =
      Tree.insertPerfected ⟨levelsAbove combine leaves, frontierOf combine leaves⟩ nodes := by
  rw [treeOf, ← levelsAbove_of_ne_nil hnil]

theorem push_treeOf (combine : α → α → α) (leaves : List α) (leaf : α) :
    ∃ nodes, (treeOf combine leaves).push combine leaf =
      .ok (nodes, treeOf combine (leaves ++ [leaf])) := by
  obtain ⟨nodes, hcarry, hstore⟩ := carry_next combine leaves leaf []
    (frontierOf combine leaves)
  rw [List.length_nil, List.nil_append, List.nil_append] at hstore
  have happend : Frontier.append combine (frontierOf combine leaves) leaves.length leaf =
      .ok ((.leaf leaves.length, leaf) :: nodes, frontierOf combine (leaves ++ [leaf])) := by
    rw [Frontier.append, if_pos (length_frontierOf leaves), Node.leaf]
    rw [List.length_nil] at hcarry
    rw [hcarry]
  have hinsert : (treeOf combine leaves).insertPerfected ((.leaf leaves.length, leaf) :: nodes) =
      .ok ⟨levelsAbove combine (leaves ++ [leaf]), frontierOf combine leaves⟩ := by
    -- The empty lowest level of a new tree is not among the levels above.
    by_cases hnil : leaves = []
    · subst hnil
      have hfirst := (carry_next_even combine (rfl : ([] : List α).length % 2 = 0) leaf [] []).1
      obtain rfl : nodes = [] := congrArg Prod.fst (hcarry.symm.trans hfirst)
      simp [treeOf, Tree.insertPerfected, Tree.insertNode, Tree.place, levelsAbove_nil,
        levelsAbove_of_ne_nil, pairUp, Node.leaf]
    · rw [insertPerfected_treeOf hnil]
      exact hstore
  refine ⟨(.leaf leaves.length, leaf) :: nodes, ?_⟩
  rw [Tree.push, count_treeOf]
  simp only [treeOf] at hinsert ⊢
  rw [happend]
  simp only [bind, Except.bind, hinsert, pure, Except.pure]
  rw [levelsAbove_concat]

end TamperEvident
