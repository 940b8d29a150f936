import Mathlib.Data.List.Nodup
import TamperEvident.Proofs.Except
import TamperEvident.Proofs.Merkle.Coordinates

/-! One append to a frontier. The new leaf is joined with a perfect subtree for each one at
the low end of the leaf count, as a one is carried when the count is increased. The nodes it
completes are those whose last leaf it is, so a run of appends gives every node once. -/

namespace TamperEvident

variable {α : Type}

def trailingOnes (n : Nat) : Nat :=
  if n % 2 = 1 then trailingOnes (n / 2) + 1 else 0
termination_by n
decreasing_by omega

theorem trailingOnes_even {n : Nat} (h : n % 2 = 0) : trailingOnes n = 0 := by
  rw [trailingOnes, if_neg (by omega)]

theorem trailingOnes_odd {n : Nat} (h : n % 2 = 1) :
    trailingOnes n = trailingOnes (n / 2) + 1 := by
  rw [trailingOnes, if_pos h]

theorem popCount_half (n : Nat) : popCount n = n % 2 + popCount (n / 2) := by
  by_cases hz : n = 0
  · simp [hz, popCount_zero]
  · rw [popCount, if_neg hz]

/-- A one that is added to a number takes the place of the ones at its low end. -/
theorem popCount_succ (n : Nat) : popCount (n + 1) + trailingOnes n = popCount n + 1 := by
  induction n using Nat.strongRecOn with
  | ind n ih =>
    have hnext := popCount_half (n + 1)
    have hthis := popCount_half n
    by_cases hodd : n % 2 = 1
    · have hhalf : (n + 1) / 2 = n / 2 + 1 := by omega
      have hi := ih (n / 2) (by omega)
      rw [hhalf] at hnext
      rw [trailingOnes_odd hodd]
      omega
    · have hhalf : (n + 1) / 2 = n / 2 := by omega
      rw [hhalf] at hnext
      rw [trailingOnes_even (by omega)]
      omega

theorem trailingOnes_le_popCount (n : Nat) : trailingOnes n ≤ popCount n := by
  induction n using Nat.strongRecOn with
  | ind n ih =>
    have hthis := popCount_half n
    by_cases hodd : n % 2 = 1
    · have hi := ih (n / 2) (by omega)
      rw [trailingOnes_odd hodd]
      omega
    · rw [trailingOnes_even (by omega)]
      omega

theorem le_trailingOnes_iff {k n : Nat} : k ≤ trailingOnes n ↔ 2 ^ k ∣ n + 1 := by
  induction k generalizing n with
  | zero => simp
  | succ k ih =>
    by_cases hodd : n % 2 = 1
    · have hdouble : n + 1 = 2 * (n / 2 + 1) := by omega
      rw [trailingOnes_odd hodd, Nat.add_le_add_iff_right, ih, hdouble, Nat.pow_succ',
        Nat.mul_dvd_mul_iff_left (by omega)]
    · have hzero := trailingOnes_even (show n % 2 = 0 by omega)
      constructor
      · intro h
        omega
      · intro h
        have htwo : 2 ∣ n + 1 := (Nat.pow_succ' ▸ Nat.dvd_mul_right 2 (2 ^ k)).trans h
        omega

def endingAt (count : Nat) : List Node :=
  (List.range (trailingOnes count + 1)).map fun height => ⟨height, count / 2 ^ height⟩

theorem trailingOnes_right {n : Node} (h : n.isRight = true) :
    trailingOnes n.index = trailingOnes n.parent.index + 1 :=
  trailingOnes_odd (by simpa [Node.isRight] using h)

theorem trailingOnes_left {n : Node} (h : n.isRight = false) : trailingOnes n.index = 0 := by
  simp only [Node.isRight, beq_eq_false_iff_ne] at h
  exact trailingOnes_even (by omega)

theorem perfected_right {n : Node} (h : n.isRight = true) :
    n.perfected = n.parent :: n.parent.perfected := by
  rw [Node.perfected, dif_pos h]

theorem perfected_left {n : Node} (h : n.isRight = false) : n.perfected = [] := by
  rw [Node.perfected, dif_neg (by simp [h])]

/-- The climb from a node goes on for as long as there are ones at the low end of its index. -/
theorem cons_perfected (n : Node) :
    n :: n.perfected = (List.range (trailingOnes n.index + 1)).map fun height =>
      ⟨n.height + height, n.index / 2 ^ height⟩ := by
  induction hindex : n.index using Nat.strongRecOn generalizing n with
  | ind index ih =>
    subst hindex
    cases hside : n.isRight with
    | true =>
      have htrail := trailingOnes_right hside
      have hlt : n.parent.index < n.index := by
        simp only [Node.isRight, beq_iff_eq] at hside
        simp only [Node.parent]
        omega
      have hi := ih n.parent.index hlt n.parent rfl
      have hup : (fun height => (⟨n.parent.height + height, n.parent.index / 2 ^ height⟩ : Node)) =
          (fun height => ⟨n.height + height, n.index / 2 ^ height⟩) ∘ Nat.succ := by
        funext height
        simp only [Function.comp_apply, Node.parent, Nat.succ_eq_add_one, Nat.pow_succ',
          Nat.div_div_eq_div_mul, Nat.add_assoc, Nat.add_comm 1 height]
      rw [perfected_right hside, hi, htrail, List.range_succ_eq_map (n := trailingOnes _ + 1),
        List.map_cons, List.map_map, ← hup, Nat.pow_zero, Nat.div_one]
      rfl
    | false =>
      rw [perfected_left hside, trailingOnes_left hside]
      simp

theorem leaf_cons_perfected (count : Nat) :
    .leaf count :: (Node.leaf count).perfected = endingAt count := by
  rw [cons_perfected, endingAt]
  simp only [Node.leaf, Nat.zero_add]

theorem div_add_one_mul_pow {count height : Nat} (h : 2 ^ height ∣ count + 1) :
    (count / 2 ^ height + 1) * 2 ^ height = count + 1 := by
  rw [← Nat.succ_div_of_dvd h]
  exact Nat.div_mul_cancel h

theorem mem_endingAt {n : Node} {count : Nat} : n ∈ endingAt count ↔ n.stop = count + 1 := by
  obtain ⟨height, index⟩ := n
  have hpos := Nat.two_pow_pos height
  simp only [endingAt, List.mem_map, List.mem_range, Node.mk.injEq, Node.stop]
  constructor
  · rintro ⟨_, hlt, rfl, rfl⟩
    exact div_add_one_mul_pow (le_trailingOnes_iff.mp (Nat.le_of_lt_succ hlt))
  · intro hstop
    have hdvd : 2 ^ height ∣ count + 1 := ⟨index + 1, by rw [← hstop, Nat.mul_comm]⟩
    have hmul := (div_add_one_mul_pow hdvd).trans hstop.symm
    have hindex := Nat.eq_of_mul_eq_mul_right hpos hmul
    exact ⟨height, Nat.lt_succ_of_le (le_trailingOnes_iff.mpr hdvd), rfl, by omega⟩

theorem nodup_endingAt (count : Nat) : (endingAt count).Nodup := by
  refine List.Nodup.map ?_ List.nodup_range
  intro a b h
  exact congrArg Node.height h

theorem count_endingAt (n : Node) (count : Nat) :
    (endingAt count).count n = if n.stop = count + 1 then 1 else 0 := by
  by_cases h : n.stop = count + 1
  · rw [if_pos h, List.count_eq_one_of_mem (nodup_endingAt count) (mem_endingAt.mpr h)]
  · rw [if_neg h, List.count_eq_zero]
    exact fun hn => h (mem_endingAt.mp hn)

namespace Frontier

variable (combine : α → α → α)

/-- A carry takes the subtrees for the ones at the low end of a node's index, and leaves the
others as they are. -/
theorem carry_eq (n : Node) (value : α) {frontier : List α}
    (h : trailingOnes n.index ≤ frontier.length) :
    let lefts := frontier.take (trailingOnes n.index)
    ∃ nodes, carry combine n value frontier =
        (nodes, lefts.foldl (fun value left => combine left value) value ::
          frontier.drop (trailingOnes n.index)) ∧
      nodes.map Prod.fst = n.perfected ∧
      value :: nodes.map Prod.snd = lefts.scanl (fun value left => combine left value) value := by
  induction frontier generalizing n value with
  | nil =>
    have hzero : trailingOnes n.index = 0 := Nat.le_zero.mp h
    have hnone : n.perfected = [] := by
      have hlength := congrArg List.length (cons_perfected n)
      simpa [hzero] using hlength
    simp [hzero, hnone, carry]
  | cons left rest ih =>
    cases hside : n.isRight with
    | true =>
      have htrail := trailingOnes_right hside
      rw [htrail, List.length_cons] at h
      obtain ⟨nodes, hcarry, hnodes, hvalues⟩ :=
        ih n.parent (combine left value) (Nat.le_of_succ_le_succ h)
      refine ⟨(n.parent, combine left value) :: nodes, ?_, ?_, ?_⟩
      · rw [carry_right hside, hcarry, htrail]
        rfl
      · rw [perfected_right hside, List.map_cons, hnodes]
      · rw [List.map_cons, hvalues, htrail, List.take_succ_cons, List.scanl_cons]
    | false =>
      rw [carry_left hside, perfected_left hside, trailingOnes_left hside]
      simp

variable {combine} {frontier grown : List α} {count : Nat} {leaf : α} {nodes : List (Node × α)}

theorem append_eq_error {e : MerkleError} :
    append combine frontier count leaf = .error e ↔
      frontier.length ≠ popCount count ∧ e = .frontierSize (popCount count) frontier.length := by
  by_cases h : frontier.length = popCount count
  · simp [append, h]
  · simp [append, h, eq_comm]

theorem exists_append (combine : α → α → α) (leaf : α) (h : frontier.length = popCount count) :
    ∃ nodes grown, append combine frontier count leaf = .ok (nodes, grown) := by
  rw [append, if_pos h]
  exact ⟨_, _, rfl⟩

/-- The joins of an append are those of its leaf with subtrees further and further left. -/
theorem of_append (h : append combine frontier count leaf = .ok (nodes, grown)) :
    let lefts := frontier.take (trailingOnes count)
    frontier.length = popCount count ∧ nodes.map Prod.fst = endingAt count ∧
      nodes.map Prod.snd = lefts.scanl (fun value left => combine left value) leaf ∧
      grown = lefts.foldl (fun value left => combine left value) leaf ::
        frontier.drop (trailingOnes count) := by
  by_cases hsize : frontier.length = popCount count
  · have hle : trailingOnes count ≤ frontier.length := hsize ▸ trailingOnes_le_popCount count
    obtain ⟨above, hcarry, hnodes, hvalues⟩ := carry_eq combine (.leaf count) leaf hle
    rw [append, if_pos hsize, hcarry] at h
    cases h
    refine ⟨hsize, ?_, hvalues, rfl⟩
    rw [List.map_cons, hnodes, leaf_cons_perfected]
  · rw [append, if_neg hsize] at h
    cases h

theorem length_append (h : append combine frontier count leaf = .ok (nodes, grown)) :
    grown.length = popCount (count + 1) := by
  obtain ⟨hsize, _, _, rfl⟩ := of_append h
  have hle := trailingOnes_le_popCount count
  have hsucc := popCount_succ count
  rw [List.length_cons, List.length_drop]
  omega

theorem getElem?_append (h : append combine frontier count leaf = .ok (nodes, grown)) {k : Nat}
    (hk : k ≤ trailingOnes count) :
    ∃ value, nodes[k]? = some (⟨k, count / 2 ^ k⟩, value) ∧
      ((frontier.take (trailingOnes count)).scanl (fun value left => combine left value) leaf)[k]? =
        some value := by
  obtain ⟨_, hnodes, hvalues, _⟩ := of_append h
  have hnode : (nodes.map Prod.fst)[k]? = some ⟨k, count / 2 ^ k⟩ := by
    rw [hnodes, endingAt, List.getElem?_map, List.getElem?_range (by omega)]
    rfl
  rw [List.getElem?_map, Option.map_eq_some_iff] at hnode
  obtain ⟨⟨node, value⟩, hentry, rfl⟩ := hnode
  refine ⟨value, hentry, ?_⟩
  rw [← hvalues, List.getElem?_map, hentry]
  rfl

def appendAll (combine : α → α → α) (frontier : List α) (count : Nat) :
    List α → Except MerkleError (List (List (Node × α)) × List α)
  | [] => .ok ([], frontier)
  | leaf :: leaves => do
    let (nodes, grown) ← append combine frontier count leaf
    let (batches, last) ← appendAll combine grown (count + 1) leaves
    return (nodes :: batches, last)

theorem exists_appendAll (combine : α → α → α) (leaves : List α)
    (h : frontier.length = popCount count) :
    ∃ batches last, appendAll combine frontier count leaves = .ok (batches, last) ∧
      last.length = popCount (count + leaves.length) ∧
      batches.map (List.map Prod.fst) = (List.range' count leaves.length).map endingAt := by
  induction leaves generalizing frontier count with
  | nil => exact ⟨[], frontier, rfl, h, rfl⟩
  | cons leaf leaves ih =>
    obtain ⟨nodes, grown, happend⟩ := exists_append combine leaf h
    obtain ⟨batches, last, hrest, hlast, hbatches⟩ := ih (length_append happend)
    refine ⟨nodes :: batches, last, ?_, ?_, ?_⟩
    · simp only [appendAll, happend, hrest, bind, Except.bind, pure, Except.pure]
    · rw [hlast, List.length_cons]
      congr 1
      omega
    · rw [List.map_cons, hbatches, (of_append happend).2.1, List.length_cons, List.range'_succ,
        List.map_cons]

end Frontier

/-- Appends to `count` leaves up to `count + n` complete the nodes that end among the new ones. -/
theorem count_endingAt_range (node : Node) (count n : Nat) :
    (((List.range' count n).map endingAt).flatten).count node =
      if count < node.stop ∧ node.stop ≤ count + n then 1 else 0 := by
  induction n generalizing count with
  | zero =>
    rw [if_neg (by omega)]
    rfl
  | succ n ih =>
    rw [List.range'_succ, List.map_cons, List.flatten_cons, List.count_append, ih, count_endingAt]
    by_cases hlast : node.stop = count + 1
    · rw [if_pos hlast, if_neg (by omega), if_pos (by omega)]
    · rw [if_neg hlast, Nat.zero_add]
      exact if_congr (by omega) rfl rfl

/-- An append fails on a frontier of the wrong size only. Otherwise it gives the leaf and, for
each one at the low end of the count, the node above with the next subtree joined on the left;
the last of these takes the place of the subtrees it was made from. Of appends to an empty
frontier none fails, and each complete node is given once, with its last leaf. -/
theorem appends_complete_each_node_once (combine : α → α → α) :
    (∀ (frontier : List α) (count : Nat) (leaf : α),
      (∀ e, Frontier.append combine frontier count leaf = .error e ↔
        frontier.length ≠ popCount count ∧ e = .frontierSize (popCount count) frontier.length) ∧
      (frontier.length = popCount count →
        ∃ nodes grown, Frontier.append combine frontier count leaf = .ok (nodes, grown) ∧
          nodes.length = trailingOnes count + 1 ∧
          nodes.map Prod.fst = .leaf count :: (Node.leaf count).perfected ∧
          nodes[0]? = some (.leaf count, leaf) ∧
          (∀ k, k < trailingOnes count → ∃ left n value, frontier[k]? = some left ∧
            nodes[k]? = some (n, value) ∧
            nodes[k + 1]? = some (⟨k + 1, count / 2 ^ (k + 1)⟩, combine left value)) ∧
          (∃ n last, nodes.getLast? = some (n, last) ∧
            grown = last :: frontier.drop (trailingOnes count)) ∧
          grown.length = popCount (count + 1))) ∧
    ∀ leaves : List α, ∃ batches last,
      Frontier.appendAll combine [] 0 leaves = .ok (batches, last) ∧
      batches.length = leaves.length ∧ last.length = popCount leaves.length ∧
      (∀ n, (batches.flatten.map Prod.fst).count n = if n.stop ≤ leaves.length then 1 else 0) ∧
      ∀ j nodes, batches[j]? = some nodes → ∀ n, n ∈ nodes.map Prod.fst ↔ n.stop = j + 1 := by
  constructor
  · intro frontier count leaf
    refine ⟨fun e => Frontier.append_eq_error, fun hsize => ?_⟩
    obtain ⟨nodes, grown, happend⟩ := Frontier.exists_append combine leaf hsize
    obtain ⟨_, hnodes, hvalues, hgrown⟩ := Frontier.of_append happend
    have hle := hsize ▸ trailingOnes_le_popCount count
    have hclimb := hnodes.trans (leaf_cons_perfected count).symm
    refine ⟨nodes, grown, happend, ?_, hclimb, ?_, ?_, ?_, Frontier.length_append happend⟩
    · rw [← List.length_map Prod.fst, hnodes, endingAt, List.length_map, List.length_range]
    · obtain ⟨value, hfirst, hvalue⟩ := Frontier.getElem?_append happend (Nat.zero_le _)
      rw [List.getElem?_scanl_zero, Option.some.injEq] at hvalue
      rw [hfirst, hvalue, Nat.pow_zero, Nat.div_one]
      rfl
    · intro k hk
      obtain ⟨value, hnode, hvalue⟩ := Frontier.getElem?_append happend (Nat.le_of_lt hk)
      obtain ⟨above, hnext, habove⟩ := Frontier.getElem?_append happend hk
      have hlt : k < frontier.length := by omega
      rw [List.getElem?_succ_scanl, hvalue, List.getElem?_take_of_lt hk,
        List.getElem?_eq_getElem hlt] at habove
      obtain rfl : combine frontier[k] value = above := by simpa using habove
      exact ⟨frontier[k], _, value, List.getElem?_eq_getElem hlt, hnode, hnext⟩
    · have hlast : (nodes.map Prod.snd).getLast? =
          some ((frontier.take (trailingOnes count)).foldl
            (fun value left => combine left value) leaf) := by
        rw [hvalues, List.getLast?_scanl]
      rw [List.getLast?_map, Option.map_eq_some_iff] at hlast
      obtain ⟨⟨n, last⟩, hentry, rfl⟩ := hlast
      exact ⟨n, _, hentry, hgrown⟩
  · intro leaves
    have hempty : ([] : List α).length = popCount 0 := by rw [popCount, if_pos rfl]; rfl
    obtain ⟨batches, last, hrun, hlast, hbatches⟩ :=
      Frontier.exists_appendAll combine leaves hempty
    have hlength := congrArg List.length hbatches
    rw [List.length_map, List.length_map, List.length_range'] at hlength
    rw [Nat.zero_add] at hlast
    refine ⟨batches, last, hrun, hlength, hlast, ?_, ?_⟩
    · intro n
      have hpos := n.start_lt_stop
      rw [List.map_flatten, hbatches, count_endingAt_range]
      exact if_congr (by omega) rfl rfl
    · intro j nodes hnodes n
      have hj : (batches.map (List.map Prod.fst))[j]? = some (nodes.map Prod.fst) := by
        rw [List.getElem?_map, hnodes]
        rfl
      have hlt : j < leaves.length := by
        rw [← hlength]
        exact (List.getElem?_eq_some_iff.mp hnodes).1
      rw [hbatches, List.getElem?_map, List.getElem?_range' hlt, Option.map_some,
        Option.some.injEq] at hj
      rw [← hj, mem_endingAt]
      omega

/-- The eighth leaf is joined with every subtree there is. -/
theorem eighth_leaf_completes_all :
    ([6, 5, 3] : List Nat).length = popCount 7 ∧
      ∃ nodes grown, Frontier.append (fun a b => a + b) [6, 5, 3] 7 7 = .ok (nodes, grown) ∧
        nodes.length = trailingOnes 7 + 1 ∧ grown.length = popCount 8 := by
  have hsize : ([6, 5, 3] : List Nat).length = popCount 7 := by simp [popCount]
  obtain ⟨nodes, grown, happend, hlength, _, _, _, _, hgrown⟩ :=
    ((appends_complete_each_node_once fun a b : Nat => a + b).1 [6, 5, 3] 7 7).2 hsize
  exact ⟨hsize, nodes, grown, happend, hlength, hgrown⟩

end TamperEvident
