import TamperEvident.Proofs.Merkle.Completeness

/-! The nodes that a proof names, before any of them has a value. Together they hold
the leaves of the tree, each of them once: steps on the left have those before the
start of the proof, and steps on the right those after it. Nothing has to be
stored for that, so it goes for every count that is a 64-bit number. -/

namespace TamperEvident

def Node.Holds (n : Node) (leaf : Nat) : Prop := n.start ≤ leaf ∧ leaf < n.stop

def Target.nodes : Target → List Node
  | .node n => [n]
  | .cover nodes => nodes

def Step.named (steps : List (Step Target)) : List Node := steps.flatMap fun s => s.entry.nodes

/-- No two of the nodes share a leaf, and together they hold the leaves from `lo` up to `hi`. -/
structure Tiles (nodes : List Node) (lo hi : Nat) : Prop where
  apart : nodes.Pairwise fun m n => ∀ leaf, m.Holds leaf → ¬ n.Holds leaf
  covers : ∀ leaf, (∃ n ∈ nodes, n.Holds leaf) ↔ lo ≤ leaf ∧ leaf < hi

namespace Tiles

variable {as bs nodes : List Node} {lo mid hi : Nat}

theorem nil (lo : Nat) : Tiles [] lo lo := by
  refine ⟨.nil, fun leaf => ?_⟩
  simp only [List.not_mem_nil, false_and, exists_false, false_iff]
  omega

theorem singleton (n : Node) : Tiles [n] n.start n.stop := by
  refine ⟨List.pairwise_singleton _ n, fun leaf => ?_⟩
  simp only [List.mem_singleton, exists_eq_left]
  exact Iff.rfl

theorem append (ha : Tiles as lo mid) (hb : Tiles bs mid hi) (hlo : lo ≤ mid) (hhi : mid ≤ hi) :
    Tiles (as ++ bs) lo hi := by
  constructor
  · refine List.pairwise_append.mpr ⟨ha.apart, hb.apart, fun m hm n hn leaf hleft hright => ?_⟩
    have hbefore := (ha.covers leaf).mp ⟨m, hm, hleft⟩
    have hafter := (hb.covers leaf).mp ⟨n, hn, hright⟩
    omega
  · intro leaf
    have hleft := ha.covers leaf
    have hright := hb.covers leaf
    simp only [List.mem_append, or_and_right, exists_or]
    rw [hleft, hright]
    omega

theorem perm (h : Tiles as lo hi) (hp : as.Perm bs) : Tiles bs lo hi := by
  constructor
  · exact (hp.pairwise_iff fun hmn leaf hn hm => hmn leaf hm hn).mp h.apart
  · intro leaf
    rw [← h.covers leaf]
    simp only [hp.mem_iff]

theorem stop_le (h : Tiles nodes lo hi) {n : Node} (hn : n ∈ nodes) : n.stop ≤ hi := by
  have hlt := n.start_lt_stop
  have hlast := (h.covers (n.stop - 1)).mp ⟨n, hn, by omega, by omega⟩
  omega

end Tiles

theorem Ladder.bottom_le {stop bottom start : Nat} {nodes : List Node}
    (h : Ladder stop bottom start nodes) : bottom ≤ start := by
  induction nodes generalizing start with
  | nil => exact Nat.le_of_eq (Eq.symm h)
  | cons n rest ih =>
    obtain ⟨rfl, _, hrest⟩ := h
    exact (ih hrest).trans n.start_lt_stop.le

theorem Ladder.tiles {stop bottom start : Nat} {nodes : List Node}
    (h : Ladder stop bottom start nodes) : Tiles nodes bottom start := by
  induction nodes generalizing start with
  | nil =>
    obtain rfl : start = bottom := h
    exact .nil start
  | cons n rest ih =>
    obtain ⟨rfl, _, hrest⟩ := h
    have htiles := (ih hrest).append (.singleton n) hrest.bottom_le n.start_lt_stop.le
    exact htiles.perm (List.perm_append_singleton n rest)

/-- A step names what its node holds of the tree, the node itself or its cover. -/
theorem tiles_toward {n : Node} {count : Nat} (hexact : n.Exact count) (hn : n.start < count) :
    Tiles (Step.toward count n).entry.nodes n.start (min n.stop count) ∧
      (Step.toward count n).entry ≠ .cover [] := by
  have hwithin := Node.isWithin_iff_of_exact hexact
  by_cases hin : n.isWithin count = true
  · rw [Step.toward, if_pos hin, Nat.min_eq_left (hwithin.mp hin)]
    exact ⟨.singleton n, by simp⟩
  · have hout : count < n.stop := Nat.lt_of_not_le (mt hwithin.mpr hin)
    have hladder := Node.ladder_cover hexact hn hout
    rw [Step.toward, if_neg hin, Nat.min_eq_right hout.le]
    refine ⟨hladder.tiles, fun hempty => ?_⟩
    rw [Target.cover.inj hempty] at hladder
    exact hn.ne' hladder

/-- Of two siblings with leaves below the count the left one is complete, so neither
is as high as the leaf numbers go. -/
theorem Node.exact_sibling {n : Node} {count : Nat} (htop : count ≤ topLeaf)
    (hn : n.start < count) (hsibling : n.sibling.start < count) : n.sibling.Exact count := by
  rcases htop.lt_or_eq with hlt | heq
  · exact .inl hlt
  · refine .inr ⟨heq, ?_⟩
    rw [height_sibling]
    cases hleft : n.isLeft with
    | true =>
      rw [start_sibling hleft] at hsibling
      exact height_lt_of_stop_le htop hsibling.le
    | false =>
      rw [start_of_right hleft] at hn
      rw [← height_sibling]
      exact height_lt_of_stop_le htop hn.le

namespace Step

theorem named_cons (s : Step Target) (steps : List (Step Target)) :
    named (s :: steps) = s.entry.nodes ++ named steps := List.flatMap_cons

/-- Steps beside a node: they name what comes before it on the left, and what comes after
it on the right. -/
structure Flanks (n : Node) (count : Nat) (steps : List (Step Target)) : Prop where
  before : Tiles (named (steps.filter (·.onLeft))) 0 n.start
  after : Tiles (named (steps.filter (!·.onLeft))) (min n.stop count) count
  nonempty : ∀ s ∈ steps, s.entry ≠ .cover []

theorem Flanks.join {n : Node} {count : Nat} {steps : List (Step Target)}
    (htop : count ≤ Node.topLeaf) (hn : n.start < count) (hsibling : n.sibling.start < count)
    (h : Flanks n.parent count steps) : Flanks n count (toward count n.sibling :: steps) := by
  obtain ⟨htiles, hcover⟩ := tiles_toward (Node.exact_sibling htop hn hsibling) hsibling
  have hnonempty : ∀ s ∈ toward count n.sibling :: steps, s.entry ≠ .cover [] :=
    List.forall_mem_cons.mpr ⟨hcover, h.nonempty⟩
  have hside : (toward count n.sibling).onLeft = !n.isLeft := n.isLeft_sibling
  have hlt := n.sibling.start_lt_stop
  cases hleft : n.isLeft with
  | true =>
    rw [hleft] at hside
    have hbefore := h.before
    have hafter := h.after
    rw [Node.start_parent hleft] at hbefore
    rw [Node.stop_parent hleft] at hafter
    rw [Node.start_sibling hleft] at htiles hsibling hlt
    refine ⟨?_, ?_, hnonempty⟩
    · rwa [List.filter_cons_of_neg (by simp [hside])]
    · rw [List.filter_cons_of_pos (by simp [hside]), named_cons, Nat.min_eq_left hsibling.le]
      exact htiles.append hafter (by omega) (Nat.min_le_right _ _)
  | false =>
    rw [hleft] at hside
    have hbefore := h.before
    have hafter := h.after
    rw [Node.start_parent_of_right hleft] at hbefore
    rw [Node.stop_parent_of_right hleft] at hafter
    rw [Node.start_of_right hleft] at hn
    rw [Nat.min_eq_left hn.le] at htiles
    refine ⟨?_, ?_, hnonempty⟩
    · rw [Node.start_of_right hleft, List.filter_cons_of_pos (by simp [hside]), named_cons]
      exact (hbefore.append htiles (Nat.zero_le _) hlt.le).perm List.perm_append_comm
    · rwa [List.filter_cons_of_neg (by simp [hside])]

theorem Flanks.skip {n : Node} {count : Nat} {steps : List (Step Target)} (hn : n.start < count)
    (hsibling : count ≤ n.sibling.start) (h : Flanks n.parent count steps) :
    Flanks n count steps := by
  have hlt := n.sibling.start_lt_stop
  cases hleft : n.isLeft with
  | true =>
    have hbefore := h.before
    have hafter := h.after
    rw [Node.start_parent hleft] at hbefore
    rw [Node.stop_parent hleft, Nat.min_eq_right (by omega)] at hafter
    rw [Node.start_sibling hleft] at hsibling
    refine ⟨hbefore, ?_, h.nonempty⟩
    rwa [Nat.min_eq_right hsibling]
  | false =>
    rw [Node.start_of_right hleft] at hn
    omega

theorem flanks_siblings {n : Node} {count m : Nat} (htop : count ≤ Node.topLeaf)
    (hindex : n.index < m) (hsize : count ≤ m * 2 ^ n.height) (hn : n.start < count) :
    Flanks n count (((siblings n m).filter (·.minLeaf < count)).map (toward count)) := by
  refine siblingInduction (motive := fun n l => Flanks n count (l.map (toward count)))
    ?_ ?_ ?_ htop hindex hsize hn
  · intro n hzero hstop
    have hstart : n.start = 0 := by rw [Node.start, hzero, Nat.zero_mul]
    refine ⟨?_, ?_, by simp⟩
    · rw [hstart]
      exact .nil 0
    · rw [Nat.min_eq_right hstop]
      exact .nil count
  · intro n l hn hsibling h
    exact h.join htop hn hsibling
  · intro n l hn hsibling h
    exact h.skip hn hsibling

theorem toRoot_flanks {n : Node} {count : Nat} (htop : count ≤ Node.topLeaf)
    (hstop : n.stop ≤ count) (hindex : n.index < count) :
    ∃ rest, toRoot n count = ⟨n.isLeft, .node n⟩ :: rest ∧ Flanks n count rest := by
  have hn : n.start < count := n.start_lt_stop.trans_le hstop
  have hmin : n.minLeaf < count := (Node.minLeaf_lt_iff htop).mpr hn
  have hpow := Nat.one_le_two_pow (n := n.height)
  have hsize : count ≤ count * 2 ^ n.height := Nat.le_mul_of_pos_right count hpow
  have hexact : n.Exact count := by
    rcases htop.lt_or_eq with hlt | heq
    · exact .inl hlt
    · exact .inr ⟨heq, Node.height_lt_of_stop_le htop hstop⟩
  have hwithin := (Node.isWithin_iff_of_exact hexact).mpr hstop
  refine ⟨_, ?_, flanks_siblings htop hindex hsize hn⟩
  rw [toRoot, List.filter_cons_of_pos (by simpa using hmin), List.map_cons, toward, if_pos hwithin]
  rfl

variable {n : Node} {count : Nat} {rest : List (Step Target)}

theorem Flanks.tiles_left (h : Flanks n count rest) (side : Bool) :
    Tiles (named (⟨side, .node n⟩ :: rest.filter (·.onLeft))) 0 n.stop := by
  have htiles := h.before.append (.singleton n) (Nat.zero_le _) n.start_lt_stop.le
  exact htiles.perm (List.perm_append_singleton n _)

theorem Flanks.tiles (h : Flanks n count rest) (hstop : n.stop ≤ count) (side : Bool) :
    Tiles (named (⟨side, .node n⟩ :: rest)) 0 count := by
  have hafter := h.after
  rw [Nat.min_eq_left hstop] at hafter
  have htiles := (h.tiles_left side).append hafter (Nat.zero_le _) hstop
  refine htiles.perm ?_
  rw [named_cons, named_cons, List.append_assoc, named, named, ← List.flatMap_append]
  exact ((List.filter_append_perm (·.onLeft) rest).flatMap_right _).append_left _

end Step

/-- Up to the largest count that is a 64-bit number, the nodes that a proof names are complete,
and each leaf of the tree is below exactly one of them. Around the leaf or the older tree that
the proof is about, the steps on the left have what comes before and the others what comes
after. -/
theorem tiles_of_proof :
    (∀ leaf count, leaf < count → count < 2 ^ 64 →
      ∃ first rest, Step.inclusion leaf count = .ok (first :: rest) ∧
        first.entry = .node (.leaf leaf) ∧
        (∀ n ∈ Step.named (first :: rest), n.stop ≤ count) ∧
        Tiles (Step.named (first :: rest)) 0 count ∧
        (∀ s ∈ first :: rest, s.entry ≠ .cover []) ∧
        Tiles (Step.named (rest.filter (·.onLeft))) 0 leaf ∧
        Tiles (Step.named (rest.filter (!·.onLeft))) (leaf + 1) count) ∧
    ∀ old count, 1 ≤ old → old ≤ count → count < 2 ^ 64 →
      ∃ first rest, Step.consistency old count = .ok (first :: rest) ∧
        (∀ n ∈ Step.named (first :: rest), n.stop ≤ count) ∧
        Tiles (Step.named (first :: rest)) 0 count ∧
        (∀ s ∈ first :: rest, s.entry ≠ .cover []) ∧
        Tiles (Step.named (first :: rest.filter (·.onLeft))) 0 old ∧
        Tiles (Step.named (rest.filter (!·.onLeft))) old count := by
  constructor
  · intro leaf count hleaf hcount
    have htop : count ≤ Node.topLeaf := Nat.le_sub_one_of_lt hcount
    have hstop : (Node.leaf leaf).stop ≤ count := by rwa [Node.stop_leaf]
    obtain ⟨rest, hsteps, hflanks⟩ := Step.toRoot_flanks htop hstop hleaf
    have htiles := hflanks.tiles hstop (Node.leaf leaf).isLeft
    have hbefore := hflanks.before
    have hafter := hflanks.after
    rw [Node.start_leaf] at hbefore
    rw [Nat.min_eq_left hstop, Node.stop_leaf] at hafter
    refine ⟨_, rest, ?_, rfl, fun n hn => htiles.stop_le hn, htiles, ?_, hbefore, hafter⟩
    · rw [Step.inclusion, if_pos hleaf, hsteps]
    · exact List.forall_mem_cons.mpr ⟨by simp, hflanks.nonempty⟩
  · intro old count hold hle hcount
    have htop : count ≤ Node.topLeaf := Nat.le_sub_one_of_lt hcount
    obtain ⟨hlast, _, hindex⟩ := climbRight_last hold
    obtain ⟨rest, hsteps, hflanks⟩ :=
      Step.toRoot_flanks htop (hlast.trans_le hle) (hindex.trans_le hle)
    have htiles := hflanks.tiles (hlast.trans_le hle) (Node.leaf (old - 1)).climbRight.isLeft
    have hleft := hflanks.tiles_left (Node.leaf (old - 1)).climbRight.isLeft
    have hafter := hflanks.after
    rw [hlast] at hleft
    rw [hlast, Nat.min_eq_left hle] at hafter
    refine ⟨_, rest, ?_, fun n hn => htiles.stop_le hn, htiles, ?_, hleft, hafter⟩
    · rw [Step.consistency, if_neg (by omega), hsteps]
    · exact List.forall_mem_cons.mpr ⟨by simp, hflanks.nonempty⟩

/-- The largest count there is. The older tree is half of what 64-bit numbers reach, and the node
beside it is there in all but its last leaf. -/
theorem tiles_of_largest_proof :
    (∃ first rest, Step.inclusion 5 (2 ^ 64 - 1) = .ok (first :: rest) ∧
      first.entry = .node (.leaf 5) ∧
      (∀ n ∈ Step.named (first :: rest), n.stop ≤ 2 ^ 64 - 1) ∧
      Tiles (Step.named (first :: rest)) 0 (2 ^ 64 - 1) ∧
      (∀ s ∈ first :: rest, s.entry ≠ .cover []) ∧
      Tiles (Step.named (rest.filter (·.onLeft))) 0 5 ∧
      Tiles (Step.named (rest.filter (!·.onLeft))) 6 (2 ^ 64 - 1)) ∧
    ∃ first rest, Step.consistency (2 ^ 63) (2 ^ 64 - 1) = .ok (first :: rest) ∧
      (∀ n ∈ Step.named (first :: rest), n.stop ≤ 2 ^ 64 - 1) ∧
      Tiles (Step.named (first :: rest)) 0 (2 ^ 64 - 1) ∧
      (∀ s ∈ first :: rest, s.entry ≠ .cover []) ∧
      Tiles (Step.named (first :: rest.filter (·.onLeft))) 0 (2 ^ 63) ∧
      Tiles (Step.named (rest.filter (!·.onLeft))) (2 ^ 63) (2 ^ 64 - 1) :=
  ⟨tiles_of_proof.1 5 (2 ^ 64 - 1) (by decide) (by decide),
    tiles_of_proof.2 (2 ^ 63) (2 ^ 64 - 1) (by decide) (by decide) (by decide)⟩

end TamperEvident
