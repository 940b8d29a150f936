import TamperEvident.Proofs.Except
import TamperEvident.Proofs.Merkle.Appended

/-! A replica is never pushed a leaf. It is handed the nodes that pushes to another
tree complete, in their order but in batches of any size, and stores the same levels
that way. Its frontier stays as it was, and nothing it is asked reads that. -/

namespace TamperEvident

variable {α : Type} {combine : α → α → α} {t t' r : Tree α}

/-- A replica that gives every answer that a tree gives from its levels. -/
structure Tree.Agrees (combine : α → α → α) (t r : Tree α) : Prop where
  count : r.count = t.count
  stored : ∀ n, r.stored n = t.stored n
  nodeValue : ∀ n count, r.nodeValue combine n count = t.nodeValue combine n count
  rootAt : ∀ count, r.rootAt combine count = t.rootAt combine count
  inclusionProof : ∀ leaf count,
    r.inclusionProof combine leaf count = t.inclusionProof combine leaf count
  consistencyProof : ∀ old new,
    r.consistencyProof combine old new = t.consistencyProof combine old new

theorem agrees_of_levels (combine : α → α → α) (h : r.levels = t.levels) :
    Tree.Agrees combine t r := by
  obtain ⟨levels, frontier⟩ := t
  obtain ⟨_, frontier'⟩ := r
  obtain rfl := h
  exact ⟨rfl, fun _ => rfl, fun _ _ => rfl, fun _ => rfl, fun _ _ => rfl, fun _ _ => rfl⟩

/-- Handed the nodes, whatever stores the levels of `t` comes to store those of `t'`. -/
def Tree.Advances (t : Tree α) (nodes : List (Node × α)) (t' : Tree α) : Prop :=
  ∀ r : Tree α, r.levels = t.levels →
    ∃ r', r.insertPerfected nodes = .ok r' ∧ r'.levels = t'.levels

theorem insertPerfected_append (r : Tree α) (nodes more : List (Node × α)) :
    r.insertPerfected (nodes ++ more) =
      r.insertPerfected nodes >>= fun grown => grown.insertPerfected more := List.foldlM_append

theorem foldlM_batches (r : Tree α) (batches : List (List (Node × α))) :
    batches.foldlM Tree.insertPerfected r = r.insertPerfected batches.flatten := by
  induction batches generalizing r with
  | nil => rfl
  | cons batch batches ih =>
    rw [List.foldlM_cons, List.flatten_cons, insertPerfected_append]
    exact congrArg _ (funext ih)

namespace Tree.Advances

theorem of_levels (h : t'.levels = t.levels) : t.Advances [] t' := by
  intro r hr
  exact ⟨r, rfl, hr.trans h.symm⟩

theorem trans {t'' : Tree α} {nodes more : List (Node × α)} (h : t.Advances nodes t')
    (h' : t'.Advances more t'') : t.Advances (nodes ++ more) t'' := by
  intro r hr
  obtain ⟨r', hstored, hr'⟩ := h r hr
  obtain ⟨r'', hstored', hr''⟩ := h' r' hr'
  refine ⟨r'', ?_, hr''⟩
  rw [insertPerfected_append, hstored]
  exact hstored'

theorem of_insertNode {entry : Node × α} (ht : t.insertNode entry = .ok t') :
    t.Advances [entry] t' := by
  intro r hr
  obtain ⟨_, frontier⟩ := t
  obtain ⟨levels, frontier'⟩ := r
  obtain rfl := hr
  obtain ⟨node, value⟩ := entry
  cases hplace : Tree.place node.height node.index value levels with
  | none => simp [Tree.insertNode, hplace] at ht
  | some grown =>
    simp only [Tree.insertNode, hplace, Except.ok.injEq] at ht
    subst ht
    refine ⟨⟨grown, frontier'⟩, ?_, rfl⟩
    rw [Tree.insertPerfected, List.foldlM_cons, Tree.insertNode, hplace]
    rfl

theorem of_insertPerfected {nodes : List (Node × α)} (ht : t.insertPerfected nodes = .ok t') :
    t.Advances nodes t' := by
  induction nodes generalizing t with
  | nil =>
    obtain rfl : t = t' := Except.ok.inj ht
    exact .of_levels rfl
  | cons entry nodes ih =>
    rw [Tree.insertPerfected, List.foldlM_cons] at ht
    obtain ⟨grown, hentry, hrest⟩ := bind_eq_ok.mp ht
    exact (of_insertNode hentry).trans (ih hrest)

theorem of_push {leaf : α} {nodes : List (Node × α)}
    (hpush : t.push combine leaf = .ok (nodes, t')) : t.Advances nodes t' := by
  obtain ⟨⟨completed, frontier⟩, _, hrest⟩ := bind_eq_ok.mp hpush
  obtain ⟨stored, hstored, hgrown⟩ := bind_eq_ok.mp hrest
  cases hgrown
  exact fun r hr => of_insertPerfected hstored r hr

theorem of_pushAll {leaves : List α} {nodes : List (Node × α)}
    (hpush : t.pushAll combine leaves = .ok (nodes, t')) : t.Advances nodes t' := by
  induction leaves generalizing t nodes with
  | nil =>
    cases hpush
    exact .of_levels rfl
  | cons leaf leaves ih =>
    obtain ⟨⟨completed, grown⟩, hleaf, hrest⟩ := bind_eq_ok.mp hpush
    obtain ⟨⟨more, last⟩, hleaves, hlast⟩ := bind_eq_ok.mp hrest
    cases hlast
    exact (of_push hleaf).trans (ih hleaves)

theorem in_batches {nodes : List (Node × α)} (h : t.Advances nodes t') (hr : r.levels = t.levels)
    {batches : List (List (Node × α))} (hnodes : batches.flatten = nodes) :
    ∃ r', batches.foldlM Tree.insertPerfected r = .ok r' ∧ r'.levels = t'.levels := by
  rw [foldlM_batches, hnodes]
  exact h r hr

end Tree.Advances

end TamperEvident
