import TamperEvident.Merkle.Proof
import TamperEvident.Proofs.Merkle.Appended
import TamperEvident.Proofs.Merkle.Coordinates

/-! The complete nodes that stand in for a node of which only some leaves are
there. From the last leaf leftwards each one is as high as its right edge
allows, so together they are a ladder, and their join is the root over what the
node holds. -/

namespace TamperEvident

variable {α : Type} {combine : α → α → α}

namespace Node

/-- With too few leaves left for a node of its size, the climb from a node is
one over right children only. -/
theorem climbWithin_eq_climbRight {c : Node} {count : Nat}
    (hexact : c.climbRight.parent.Exact count) (hstop : c.stop ≤ count)
    (hgap : count < c.stop + 2 ^ c.climbRight.height) :
    c.climbWithin count = c.climbRight := by
  induction c using climbInduction with
  | left c hleft =>
    rw [climbRight_of_left hleft] at hexact hgap ⊢
    rw [climbWithin, if_neg]
    rw [isWithin_iff_of_exact hexact, stop_parent_eq hleft]
    omega
  | right c hright ih =>
    have hparent := stop_parent_of_right hright
    rw [climbRight_of_right hright] at hexact hgap ⊢
    have hlow : c.parent.Exact count :=
      hexact.of_height_le (c.parent.height_le_climbRight.trans (Nat.le_succ _))
    have hwithin : c.parent.isWithin count = true := by
      rwa [isWithin_iff_of_exact hlow, hparent]
    rw [climbWithin, if_pos ⟨height_lt_of_stop_le hexact.le_topLeaf hstop, hwithin⟩]
    exact ih hexact (by rwa [hparent]) (by rwa [hparent])

theorem climbRight_inside {n c : Node} (hstart : n.start ≤ c.start) (hstop : c.stop < n.stop) :
    c.climbRight.height < n.height ∧ n.start ≤ c.climbRight.start := by
  have htop := c.stop_climbRight
  have hlt : n.start < c.climbRight.stop := by
    rw [htop]
    exact hstart.trans_lt c.start_lt_stop
  have hheight : c.climbRight.height ≤ n.height := by
    by_contra hh
    have hnext : (⟨c.climbRight.height, c.climbRight.index + 1⟩ : Node).start ≤ n.start :=
      start_le_of_lt_stop (Nat.le_of_not_le hh) (by rwa [← htop] at hstop)
    exact absurd hlt (Nat.not_lt.mpr hnext)
  have hinside := start_le_of_lt_stop hheight hlt
  refine ⟨hheight.lt_of_ne fun heq => ?_, hinside⟩
  have hend := c.climbRight.stop_eq
  rw [heq] at hend
  have hend' := n.stop_eq
  omega

/-- The cursor left of a left child is a right child, so it climbs. -/
theorem left_neighbour {n next : Node} (hleft : n.isLeft = true) (hindex : n.index ≠ 0)
    (hnext : next = ⟨n.height, n.index - 1⟩) :
    next.stop = n.start ∧ n.height < next.climbRight.height := by
  subst hnext
  simp only [isLeft, beq_iff_eq] at hleft
  have hright : (⟨n.height, n.index - 1⟩ : Node).isLeft = false := by
    simp only [isLeft, beq_eq_false_iff_ne]
    omega
  constructor
  · rw [stop, start, Nat.sub_add_cancel (Nat.pos_of_ne_zero hindex)]
  · rw [climbRight_of_right hright]
    exact height_le_climbRight (parent ⟨n.height, n.index - 1⟩)

theorem ladder_coverFrom {n c : Node} {count : Nat} (hexact : n.Exact count)
    (hout : count < n.stop) (hstop : c.stop ≤ count)
    (hgap : count < c.stop + 2 ^ c.climbRight.height)
    (hfit : n.start ≤ c.start ∨ c.stop = n.start) :
    Ladder count n.start c.stop (n.coverFrom count c) := by
  have htop := hexact.le_topLeaf
  induction hm : c.stop using Nat.strongRecOn generalizing c with
  | ind m ih =>
    subst hm
    by_cases hin : n.contains c = true
    · have hc := (contains_iff (hstop.trans htop)).mp hin
      obtain ⟨hheight, hlow⟩ := climbRight_inside hc.1 (hstop.trans_lt hout)
      have hend := c.stop_climbRight
      have hsize := c.climbRight.stop_eq
      rw [coverFrom, if_pos hin,
        climbWithin_eq_climbRight (hexact.of_height_le hheight) hstop hgap]
      by_cases hindex : c.climbRight.index = 0
      · have hzero : c.climbRight.start = 0 := by rw [start, hindex, Nat.zero_mul]
        have hbottom : c.climbRight.start = n.start := by omega
        rw [dif_pos hindex]
        exact ⟨hend, by omega, hbottom⟩
      · obtain ⟨hnext, hhigher⟩ := left_neighbour c.isLeft_climbRight hindex rfl
        have hpow := Nat.pow_le_pow_right (show 0 < 2 by omega) hhigher
        rw [Nat.succ_eq_add_one, Nat.pow_succ] at hpow
        have hfit' : n.start ≤ (⟨c.climbRight.height, c.climbRight.index - 1⟩ : Node).start ∨
            (⟨c.climbRight.height, c.climbRight.index - 1⟩ : Node).stop = n.start := by
          rcases hlow.lt_or_eq with hlt | heq
          · exact .inl (start_le_of_lt_stop hheight.le (by rwa [hnext]))
          · exact .inr (hnext.trans heq.symm)
        have hrest := ih _ (by omega) (by omega) (by omega) hfit' rfl
        rw [hnext] at hrest
        rw [dif_neg hindex]
        exact ⟨hend, by omega, hrest⟩
    · rcases hfit with hfit | hfit
      · exact absurd ((contains_iff (hstop.trans htop)).mpr ⟨hfit, hstop.trans hout.le⟩) hin
      · rw [coverFrom, if_neg hin]
        exact hfit

theorem ladder_cover {n : Node} {count : Nat} (hexact : n.Exact count)
    (hstart : n.start < count) (hout : count < n.stop) :
    Ladder count n.start count (n.cover count) := by
  have hlast : (leaf (count - 1)).stop = count := by
    rw [stop_leaf]
    omega
  have hgap := Nat.two_pow_pos (leaf (count - 1)).climbRight.height
  have hfit : n.start ≤ (leaf (count - 1)).start := by
    rw [start_leaf]
    omega
  have hladder := ladder_coverFrom hexact hout hlast.le (by omega) (.inl hfit)
  rw [cover, if_neg (by omega)]
  rwa [hlast] at hladder

end Node

theorem Ladder.stop_le {stop bottom start : Nat} {nodes : List Node}
    (h : Ladder stop bottom start nodes) : ∀ n ∈ nodes, n.stop ≤ start := by
  induction nodes generalizing start with
  | nil => simp
  | cons n rest ih =>
    obtain ⟨hn, _, hrest⟩ := h
    have hlt := n.start_lt_stop
    intro m hm
    rcases List.mem_cons.mp hm with rfl | hm
    · exact hn.le
    · have hh := ih hrest m hm
      omega

theorem exists_stored (combine : α → α → α) {leaves : List α} {nodes : List Node}
    (h : ∀ n ∈ nodes, n.stop ≤ leaves.length) :
    ∃ values, values.map some = nodes.map (fun n =>
        perfectRoot combine n.height (slice leaves n.start n.stop)) ∧
      List.Forall₂ (fun n value => (treeOf combine leaves).stored n = .ok value) nodes values := by
  induction nodes with
  | nil => exact ⟨[], rfl, .nil⟩
  | cons n nodes ih =>
    obtain ⟨value, hroot, hstored⟩ := stored_complete combine (h n List.mem_cons_self)
    obtain ⟨values, hroots, hvalues⟩ := ih fun m hm => h m (List.mem_cons_of_mem _ hm)
    refine ⟨value :: values, ?_, .cons hstored hvalues⟩
    rw [List.map_cons, List.map_cons, hroot, hroots]

theorem foldlM_lookup {lookup : Node → Except MerkleError α} {nodes : List Node} {values : List α}
    (h : List.Forall₂ (fun n value => lookup n = .ok value) nodes values) (first : α) :
    nodes.foldlM (fun value n => do return combine (← lookup n) value) first =
      .ok (values.foldl (fun value left => combine left value) first) := by
  induction h generalizing first with
  | nil => rfl
  | cons hvalue _ ih =>
    rw [List.foldlM_cons, hvalue, List.foldl_cons, ← ih]
    rfl

theorem coverValue_eq {lookup : Node → Except MerkleError α} {nodes : List Node}
    {values : List α} {root : α}
    (h : List.Forall₂ (fun n value => lookup n = .ok value) nodes values)
    (hroot : Frontier.root combine values = some root) :
    coverValue combine lookup nodes = .ok root := by
  cases h with
  | nil => simp [Frontier.root] at hroot
  | cons hvalue hrest =>
    rw [← Option.some.inj hroot, coverValue, hvalue]
    exact foldlM_lookup hrest _

theorem coverValue_cover (combine : α → α → α) {leaves : List α} {n : Node} {count : Nat}
    (htop : count < Node.topLeaf) (hcount : count ≤ leaves.length) (hstart : n.start < count)
    (hout : count < n.stop) :
    ∃ root, listRoot combine (slice leaves n.start count) = some root ∧
      coverValue combine (treeOf combine leaves).stored (n.cover count) = .ok root := by
  have hladder := Node.ladder_cover (.inl htop) hstart hout
  have hinside : ∀ m ∈ n.cover count, m.stop ≤ leaves.length :=
    fun m hm => (hladder.stop_le m hm).trans hcount
  obtain ⟨values, hvalues, hstored⟩ := exists_stored combine hinside
  have hfold := root_ladder hladder hstart hcount hvalues
  have hne : slice leaves n.start count ≠ [] :=
    List.length_pos_iff.mp (by rw [length_slice, Nat.min_eq_left hcount]; omega)
  obtain ⟨root, hroot⟩ := exists_listRoot combine hne
  exact ⟨root, hroot, coverValue_eq hstored (hfold.trans hroot)⟩

end TamperEvident
