import TamperEvident.Proofs.Merkle.Completeness

/-! What a tree answers when it is asked for a node at a count of leaves, for every
node and every count: the root of what the node holds of those leaves, or which of
the two reasons there are for having none. Leaves that come later are in none of it. -/

namespace TamperEvident

variable {α : Type} {combine : α → α → α} {leaves : List α} {n : Node} {count : Nat}

theorem nodeValue_missing (h : leaves.length < count) :
    (treeOf combine leaves).nodeValue combine n count =
      .error (.missingLeaves count leaves.length) := by
  rw [Tree.nodeValue, checkAvailable_treeOf, if_pos h]
  rfl

theorem nodeValue_outside (htop : count < Node.topLeaf) (hcount : count ≤ leaves.length)
    (h : count ≤ n.start) :
    (treeOf combine leaves).nodeValue combine n count =
      .error (.nodeOutOfRange n.height n.index count) := by
  have hlt := n.start_lt_stop
  have hin : ¬ n.isWithin count = true := by
    rw [Node.isWithin_iff htop]
    omega
  have hmin : count ≤ n.minLeaf := by
    rw [← Nat.not_lt, Node.minLeaf_lt_iff htop.le]
    omega
  rw [Tree.nodeValue, checkAvailable_treeOf, if_neg (Nat.not_lt.mpr hcount)]
  simp only [hin, hmin]
  rfl

theorem nodeValue_eq_error (htop : leaves.length < Node.topLeaf) {e : MerkleError} :
    (treeOf combine leaves).nodeValue combine n count = .error e ↔
      leaves.length < count ∧ e = .missingLeaves count leaves.length ∨
      count ≤ leaves.length ∧ count ≤ n.start ∧ e = .nodeOutOfRange n.height n.index count := by
  rw [← Nat.not_lt (a := leaves.length)]
  refine eq_error_of_tests nodeValue_missing (fun hcount hstart => ?_) fun hcount hstart => ?_
  · exact nodeValue_outside (by omega) (Nat.le_of_not_lt hcount) hstart
  · obtain ⟨root, _, hvalue⟩ := nodeValue_treeOf combine (by omega) (Nat.le_of_not_lt hcount)
      (Nat.lt_of_not_le hstart)
    exact ⟨root, hvalue⟩

theorem rootAt_missing (h : count = 0 ∨ leaves.length < count) :
    (treeOf combine leaves).rootAt combine count = .error (.missingLeaves count leaves.length) := by
  by_cases hzero : count = 0
  · rw [Tree.rootAt, if_pos hzero, count_treeOf, hzero]
  · rw [Tree.rootAt, if_neg hzero, nodeValue_missing (h.resolve_left hzero)]

theorem rootAt_eq_error (htop : leaves.length < Node.topLeaf) {e : MerkleError} :
    (treeOf combine leaves).rootAt combine count = .error e ↔
      (count = 0 ∨ leaves.length < count) ∧ e = .missingLeaves count leaves.length := by
  by_cases h : count = 0 ∨ leaves.length < count
  · simp only [rootAt_missing h, Except.error.injEq, h, true_and, eq_comm]
  · obtain ⟨root, _, hroot⟩ := rootAt_treeOf combine (by omega) (show 1 ≤ count by omega)
      (show count ≤ leaves.length by omega)
    simp only [hroot, h, false_and, reduceCtorEq]

theorem nodeRoot_append (hcount : count ≤ leaves.length) (more : List α) :
    nodeRoot combine (leaves ++ more) count n = nodeRoot combine leaves count n := by
  have hle : min n.stop count ≤ leaves.length := (Nat.min_le_right _ _).trans hcount
  rw [nodeRoot, nodeRoot, slice, slice, List.take_append_of_le_length hle]

theorem nodeValue_append (htop : count < Node.topLeaf) (hcount : count ≤ leaves.length)
    (more : List α) :
    (treeOf combine (leaves ++ more)).nodeValue combine n count =
      (treeOf combine leaves).nodeValue combine n count := by
  have hcount' : count ≤ (leaves ++ more).length := by
    rw [List.length_append]
    omega
  by_cases hstart : count ≤ n.start
  · rw [nodeValue_outside htop hcount hstart, nodeValue_outside htop hcount' hstart]
  · obtain ⟨root, hroot, hvalue⟩ :=
      nodeValue_treeOf combine htop hcount (Nat.lt_of_not_le hstart)
    obtain ⟨root', hroot', hvalue'⟩ :=
      nodeValue_treeOf combine htop hcount' (Nat.lt_of_not_le hstart)
    rw [nodeRoot_append hcount, hroot] at hroot'
    rw [hvalue, hvalue', Option.some.inj hroot']

theorem rootAt_append (htop : count < Node.topLeaf) (hpos : 1 ≤ count)
    (hcount : count ≤ leaves.length) (more : List α) :
    (treeOf combine (leaves ++ more)).rootAt combine count =
      (treeOf combine leaves).rootAt combine count := by
  rw [Tree.rootAt, Tree.rootAt, if_neg (by omega), if_neg (by omega),
    nodeValue_append htop hcount more]

/-- For every node and count a tree gives the root of the leaves that the node holds among
the first ones, or says why it cannot. What it gives for a count it has, it gives for good:
leaves pushed later change nothing about it, and a count is missing until they reach it. -/
theorem nodeValue_permanent (combine : α → α → α) {leaves : List α}
    (hlen : leaves.length < 2 ^ 63) :
    ∃ t, Tree.ofLeaves combine leaves = .ok t ∧
      (∀ n count e, t.nodeValue combine n count = .error e ↔
        leaves.length < count ∧ e = .missingLeaves count leaves.length ∨
        count ≤ leaves.length ∧ count ≤ n.index * 2 ^ n.height ∧
          e = .nodeOutOfRange n.height n.index count) ∧
      (∀ n count, count ≤ leaves.length → n.index * 2 ^ n.height < count →
        ∃ root, listRoot combine (slice leaves (n.index * 2 ^ n.height)
            (min ((n.index + 1) * 2 ^ n.height) count)) = some root ∧
          t.nodeValue combine n count = .ok root) ∧
      (∀ count e, t.rootAt combine count = .error e ↔
        (count = 0 ∨ leaves.length < count) ∧ e = .missingLeaves count leaves.length) ∧
      (∀ count, 1 ≤ count → count ≤ leaves.length →
        ∃ root, listRoot combine (leaves.take count) = some root ∧
          t.rootAt combine count = .ok root) ∧
      ∀ more, ∃ completed grown, t.pushAll combine more = .ok (completed, grown) ∧
        (∀ n count, count ≤ leaves.length →
          grown.nodeValue combine n count = t.nodeValue combine n count) ∧
        (∀ count, 1 ≤ count → count ≤ leaves.length →
          grown.rootAt combine count = t.rootAt combine count) ∧
        (∀ n count, leaves.length + more.length < count → grown.nodeValue combine n count =
          .error (.missingLeaves count (leaves.length + more.length))) ∧
        ∀ count, count = 0 ∨ leaves.length + more.length < count → grown.rootAt combine count =
          .error (.missingLeaves count (leaves.length + more.length)) := by
  have htop := lt_topLeaf hlen
  refine ⟨treeOf combine leaves, ofLeaves_eq leaves, fun _ _ _ => nodeValue_eq_error htop, ?_,
    fun _ _ => rootAt_eq_error htop, ?_, ?_⟩
  · intro n count hcount hstart
    exact nodeValue_treeOf combine (hcount.trans_lt htop) hcount hstart
  · intro count hpos hcount
    exact rootAt_treeOf combine (hcount.trans_lt htop) hpos hcount
  · intro more
    obtain ⟨completed, hgrown⟩ := pushAll_treeOf combine leaves more
    rw [← List.length_append]
    refine ⟨completed, treeOf combine (leaves ++ more), hgrown, ?_, ?_,
      fun _ _ => nodeValue_missing, fun _ => rootAt_missing⟩
    · intro n count hcount
      exact nodeValue_append (hcount.trans_lt htop) hcount more
    · intro count hpos hcount
      exact rootAt_append (hcount.trans_lt htop) hpos hcount more

/-- Seven leaves and later nine. The node over the last two of eight leaves holds one of the
seven, and one above every leaf number holds those there are at the count. -/
theorem nodeValue_permanent_seven :
    ([0, 1, 2, 3, 4, 5, 6].map FreeMagma.of).length < 2 ^ 63 ∧
      ∃ t, Tree.ofLeaves (fun a b : FreeMagma Nat => a * b)
          ([0, 1, 2, 3, 4, 5, 6].map FreeMagma.of) = .ok t ∧
        (∃ root, listRoot (fun a b => a * b)
            (slice ([0, 1, 2, 3, 4, 5, 6].map FreeMagma.of) 6 7) = some root ∧
          t.nodeValue (fun a b => a * b) ⟨1, 3⟩ 7 = .ok root) ∧
        (∃ root, listRoot (fun a b => a * b)
            (slice ([0, 1, 2, 3, 4, 5, 6].map FreeMagma.of) 0 5) = some root ∧
          t.nodeValue (fun a b => a * b) ⟨70, 0⟩ 5 = .ok root) ∧
        t.nodeValue (fun a b => a * b) ⟨2, 1⟩ 4 = .error (.nodeOutOfRange 2 1 4) ∧
        t.nodeValue (fun a b => a * b) ⟨0, 0⟩ 8 = .error (.missingLeaves 8 7) ∧
        (∃ root, listRoot (fun a b => a * b)
            (([0, 1, 2, 3, 4, 5, 6].map FreeMagma.of).take 6) = some root ∧
          t.rootAt (fun a b => a * b) 6 = .ok root) ∧
        t.rootAt (fun a b => a * b) 0 = .error (.missingLeaves 0 7) ∧
        ∃ completed grown,
          t.pushAll (fun a b => a * b) ([7, 8].map FreeMagma.of) = .ok (completed, grown) ∧
          grown.nodeValue (fun a b => a * b) ⟨1, 3⟩ 7 = t.nodeValue (fun a b => a * b) ⟨1, 3⟩ 7 ∧
          grown.rootAt (fun a b => a * b) 6 = t.rootAt (fun a b => a * b) 6 ∧
          grown.nodeValue (fun a b => a * b) ⟨0, 0⟩ 10 = .error (.missingLeaves 10 9) ∧
          grown.rootAt (fun a b => a * b) 0 = .error (.missingLeaves 0 9) := by
  have hlen : ([0, 1, 2, 3, 4, 5, 6].map FreeMagma.of).length < 2 ^ 63 := by decide
  obtain ⟨t, ht, herror, hvalue, hrootError, hroot, hlater⟩ :=
    nodeValue_permanent (fun a b : FreeMagma Nat => a * b) hlen
  obtain ⟨completed, grown, hgrown, hnodes, hroots, hmissing, hnoRoot⟩ := hlater ([7, 8].map .of)
  exact ⟨hlen, t, ht, hvalue ⟨1, 3⟩ 7 (by decide) (by decide),
    hvalue ⟨70, 0⟩ 5 (by decide) (by decide),
    (herror ⟨2, 1⟩ 4 _).mpr (.inr ⟨by decide, by decide, rfl⟩),
    (herror ⟨0, 0⟩ 8 _).mpr (.inl ⟨by decide, rfl⟩), hroot 6 (by decide) (by decide),
    (hrootError 0 _).mpr ⟨.inl rfl, rfl⟩, completed, grown, hgrown,
    hnodes ⟨1, 3⟩ 7 (by decide), hroots 6 (by decide) (by decide),
    hmissing ⟨0, 0⟩ 10 (by decide), hnoRoot 0 (.inl rfl)⟩

end TamperEvident
