import TamperEvident.Proofs.Merkle.Growth

/-! The binary decomposition of a leaf count: one complete node for each one
among its digits. Joined from right to left, the nodes give the root. -/

namespace TamperEvident

variable {α : Type} {combine : α → α → α}

/-- The complete nodes that make up the first `count` leaves, from right to left. -/
def peaks (count : Nat) : List Node :=
  ((List.range (bitLength count)).filter count.testBit).map fun height =>
    ⟨height, count / 2 ^ height - 1⟩

namespace Node

def stop (n : Node) : Nat := (n.index + 1) * 2 ^ n.height

def raise (n : Node) : Node := ⟨n.height + 1, n.index⟩

theorem start_raise (n : Node) : n.raise.start = 2 * n.start := by
  simp only [raise, start, Nat.pow_succ]
  ring

theorem stop_eq (n : Node) : n.stop = n.start + 2 ^ n.height := by
  simp only [stop, start]
  ring

end Node

theorem length_slice_node {leaves : List α} {n : Node} (h : n.stop ≤ leaves.length) :
    (slice leaves n.start n.stop).length = 2 ^ n.height := by
  rw [length_slice, Nat.min_eq_left h, n.stop_eq, Nat.add_sub_cancel_left]

theorem bitLength_half {n : Nat} (h : n ≠ 0) : bitLength n = bitLength (n / 2) + 1 := by
  by_cases h2 : 2 ≤ n
  · rw [bitLength, bitLength, if_neg h, if_neg (by omega), Nat.log2_def, if_pos h2]
  · obtain rfl : n = 1 := by omega
    rfl

theorem peaks_zero : peaks 0 = [] := rfl

theorem peaks_half {n : Nat} (h : n ≠ 0) :
    peaks n =
      (if n % 2 = 1 then [Node.leaf (n - 1)] else []) ++ (peaks (n / 2)).map Node.raise := by
  have hbit : n.testBit ∘ Nat.succ = (n / 2).testBit := funext fun i => Nat.testBit_succ n i
  have hup : ((fun height => (⟨height, n / 2 ^ height - 1⟩ : Node)) ∘ Nat.succ) =
      Node.raise ∘ fun height => ⟨height, n / 2 / 2 ^ height - 1⟩ := by
    funext height
    simp only [Function.comp_apply, Node.raise, Nat.succ_eq_add_one, Nat.pow_succ',
      Nat.div_div_eq_div_mul]
  rw [peaks, bitLength_half h, List.range_succ_eq_map, List.filter_cons, List.filter_map, hbit,
    Nat.testBit_zero, peaks, List.map_map, ← hup]
  by_cases hodd : n % 2 = 1
  · simp [hodd, Node.leaf]
  · simp [hodd]

/-- Nodes side by side from `start` down to `bottom`, each over more leaves than
there are on its right up to `stop`. -/
def Ladder (stop bottom : Nat) : (start : Nat) → List Node → Prop
  | start, [] => start = bottom
  | start, n :: rest =>
    n.stop = start ∧ stop - start < 2 ^ n.height ∧ Ladder stop bottom n.start rest

theorem Ladder.raise {stop bottom start : Nat} {nodes : List Node}
    (h : Ladder stop bottom start nodes) (stop' : Nat) (hs : stop' ≤ 2 * stop + 1) :
    Ladder stop' (2 * bottom) (2 * start) (nodes.map Node.raise) := by
  induction nodes generalizing start with
  | nil => exact congrArg (2 * ·) h
  | cons n rest ih =>
    obtain ⟨hn, hsize, hrest⟩ := h
    have hi := ih hrest
    rw [← Node.start_raise] at hi
    refine ⟨?_, ?_, hi⟩
    · rw [Node.stop_eq, Node.start_raise, ← hn, Node.stop_eq, Node.raise, Nat.pow_succ]
      ring
    · rw [Node.raise, Nat.pow_succ]
      omega

theorem ladder_peaks (n : Nat) : Ladder n 0 n (peaks n) := by
  induction n using Nat.strongRecOn with
  | ind n ih =>
    by_cases hz : n = 0
    · rw [hz]
      exact rfl
    · have hh := (ih (n / 2) (by omega)).raise n (by omega)
      rw [peaks_half hz]
      by_cases hodd : n % 2 = 1
      · rw [show 2 * (n / 2) = n - 1 by omega] at hh
        rw [if_pos hodd]
        refine ⟨?_, ?_, ?_⟩
        · simp only [Node.stop, Node.leaf]
          omega
        · simp [Node.leaf]
        · simpa [Node.leaf, Node.start] using hh
      · rw [show 2 * (n / 2) = n by omega] at hh
        rw [if_neg hodd]
        exact hh

theorem foldl_ladder {leaves : List α} {stop bottom start : Nat} {nodes : List Node}
    {values : List α} {value : α} (h : Ladder stop bottom start nodes)
    (hlt : start < stop) (hstop : stop ≤ leaves.length)
    (hvalue : listRoot combine (slice leaves start stop) = some value)
    (hvalues : values.map some = nodes.map fun n =>
      perfectRoot combine n.height (slice leaves n.start n.stop)) :
    listRoot combine (slice leaves bottom stop) =
      some (values.foldl (fun value left => combine left value) value) := by
  induction nodes generalizing start values value with
  | nil =>
    obtain rfl : values = [] := by simpa using hvalues
    obtain rfl : start = bottom := h
    exact hvalue
  | cons n rest ih =>
    obtain ⟨rfl, hsize, hrest⟩ := h
    cases values with
    | nil => simp at hvalues
    | cons left values =>
      obtain ⟨hleft, hvalues⟩ := List.cons.inj hvalues
      change some left = perfectRoot combine n.height (slice leaves n.start n.stop) at hleft
      have hn := n.stop_eq
      have hlen := length_slice_node (by omega : n.stop ≤ leaves.length)
      have hright : (slice leaves n.stop stop).length = stop - n.stop := by
        rw [length_slice, Nat.min_eq_left hstop]
      have hcut := slice_append (by omega : n.start ≤ n.stop) hlt.le leaves
      rw [List.foldl_cons]
      refine ih hrest (by omega) ?_ hvalues
      rw [← hcut, listRoot_append_perfect hlen (ne_nil_of_listRoot hvalue) (by omega), hvalue,
        ← perfectRoot_eq_listRoot hlen, ← hleft]
      rfl

theorem map_level_raise (leaves : List α) (nodes : List Node) :
    (nodes.map Node.raise).map (fun n => (level combine leaves n.height)[n.index]?) =
      nodes.map fun n => (level combine (pairUp combine leaves) n.height)[n.index]? := by
  rw [List.map_map]
  refine List.map_congr_left fun n _ => ?_
  rw [level_pairUp]
  rfl

theorem frontierOf_level (leaves : List α) :
    (frontierOf combine leaves).map some =
      (peaks leaves.length).map fun n => (level combine leaves n.height)[n.index]? := by
  induction leaves using levelInduction combine with
  | nil => rw [frontierOf_nil, List.length_nil, peaks_zero, List.map_nil, List.map_nil]
  | even l hne heven ih =>
    have hz : l.length ≠ 0 := fun h => hne (List.length_eq_zero_iff.mp h)
    rw [frontierOf_even heven, ih, length_pairUp, peaks_half hz, if_neg (by omega), List.nil_append,
      map_level_raise]
  | odd l last heven ih =>
    have hlen : (l ++ [last]).length = l.length + 1 := List.length_append
    have hhalf : (l.length + 1) / 2 = l.length / 2 := by omega
    rw [frontierOf_odd heven, hlen, peaks_half (by omega), if_pos (by omega), hhalf,
      List.map_append, map_level_raise, pairUp_concat heven, List.map_cons, ih, length_pairUp]
    simp [Node.leaf, level]

theorem frontierOf_peaks (combine : α → α → α) (leaves : List α) :
    (frontierOf combine leaves).map some = (peaks leaves.length).map fun n =>
      perfectRoot combine n.height (slice leaves n.start n.stop) := by
  rw [frontierOf_level]
  exact List.map_congr_left fun n _ => getElem?_level leaves n.height n.index

/-- A ladder joined from its lowest step upwards is the root of what it covers. -/
theorem root_ladder {leaves : List α} {stop bottom : Nat} {nodes : List Node} {values : List α}
    (h : Ladder stop bottom stop nodes) (hlt : bottom < stop) (hstop : stop ≤ leaves.length)
    (hvalues : values.map some = nodes.map fun n =>
      perfectRoot combine n.height (slice leaves n.start n.stop)) :
    Frontier.root combine values = listRoot combine (slice leaves bottom stop) := by
  cases nodes with
  | nil =>
    have he : stop = bottom := h
    omega
  | cons n nodes =>
    obtain ⟨hn, _, hrest⟩ := h
    cases values with
    | nil => simp at hvalues
    | cons first rest =>
      obtain ⟨hfirst, hvalues⟩ := List.cons.inj hvalues
      change some first = perfectRoot combine n.height (slice leaves n.start n.stop) at hfirst
      have hpos := Nat.two_pow_pos n.height
      have hsize := n.stop_eq
      have hlen := length_slice_node (by omega : n.stop ≤ leaves.length)
      have hvalue : listRoot combine (slice leaves n.start stop) = some first := by
        rw [← hn, ← perfectRoot_eq_listRoot hlen, ← hfirst]
      exact (foldl_ladder hrest (by omega) hstop hvalue hvalues).symm

/-- The fold over the frontier, which starts at the right end, gives the root
that is cut from the left. -/
theorem root_frontierOf (leaves : List α) :
    Frontier.root combine (frontierOf combine leaves) = listRoot combine leaves := by
  by_cases hnil : leaves = []
  · rw [hnil, frontierOf_nil, listRoot_nil]
    rfl
  · have hpos := List.length_pos_iff.mpr hnil
    rw [root_ladder (ladder_peaks leaves.length) hpos le_rfl (frontierOf_peaks combine leaves),
      slice_all]

end TamperEvident
