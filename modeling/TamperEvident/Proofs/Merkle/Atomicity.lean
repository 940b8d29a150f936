import TamperEvident.Merkle.InPlace
import TamperEvident.Proofs.Merkle.Replica

/-! Calls that change a tree in place. The places of a batch are all found on the lengths of
the levels before the first write, so the writes go where they should and a call that fails
has written nothing. -/

namespace TamperEvident

variable {α : Type} {combine : α → α → α} {t t' : Tree α} {nodes : List (Node × α)}

/-- A node has room at the end of its level, or in a new level on top. -/
theorem place_eq (height index : Nat) (value : α) (levels : List (Array α)) :
    Tree.place height index value levels =
      let room := InPlace.opened #[] levels height
      match room[height]? with
      | some level => if level.size = index then some (room.set height (level.push value)) else none
      | none => none := by
  induction levels generalizing height with
  | nil =>
    cases height with
    | zero => simp [Tree.place, InPlace.opened, eq_comm]
    | succ height => simp [Tree.place, InPlace.opened]
  | cons level rest ih =>
    cases height with
    | zero => simp [Tree.place, InPlace.opened]
    | succ height =>
      have hopened : InPlace.opened #[] (level :: rest) (height + 1) =
          level :: InPlace.opened #[] rest height := by
        by_cases hlength : rest.length = height
        · simp [InPlace.opened, hlength]
        · simp [InPlace.opened, hlength]
      rw [Tree.place, ih, hopened]
      cases hlevel : (InPlace.opened #[] rest height)[height]? with
      | none => simp [hlevel]
      | some found =>
        by_cases hindex : found.size = index
        · simp [hlevel, hindex]
        · simp [hlevel, hindex]

theorem map_opened {β γ : Type} (f : β → γ) (blank : β) (levels : List β) (height : Nat) :
    (InPlace.opened blank levels height).map f = InPlace.opened (f blank) (levels.map f) height := by
  rw [InPlace.opened, InPlace.opened, List.length_map]
  split_ifs with hlength
  · rw [List.map_append, List.map_singleton]
  · rfl

theorem getD_opened {β : Type} (blank : β) (levels : List β) (height i : Nat) :
    (InPlace.opened blank levels height)[i]?.getD blank = levels[i]?.getD blank := by
  rw [InPlace.opened]
  split_ifs with hlength
  · rw [List.getElem?_append]
    split_ifs with hi
    · rfl
    · rw [List.getElem?_singleton, List.getElem?_eq_none (by omega)]
      split_ifs <;> rfl
  · rfl

theorem reserve_eq (levels : List (Array α)) (n : Node) (value : α) :
    InPlace.reserve (levels.map Array.size) n =
      match Tree.place n.height n.index value levels with
      | some grown => .ok (grown.map Array.size)
      | none => .error (.missingNode n.height n.index) := by
  rw [InPlace.reserve, place_eq, ← Array.size_empty (α := α), ← map_opened]
  simp only [List.getElem?_map]
  cases hlevel : (InPlace.opened #[] levels n.height)[n.height]? with
  | none => rfl
  | some level =>
    by_cases hindex : level.size = n.index
    · simp [hindex, List.map_set]
    · simp [hindex]

theorem insertNode_eq_ok {entry : Node × α} : t.insertNode entry = .ok t' ↔
    ∃ levels, Tree.place entry.1.height entry.1.index entry.2 t.levels = some levels ∧
      t' = ⟨levels, t.frontier⟩ := by
  rw [Tree.insertNode]
  cases Tree.place entry.1.height entry.1.index entry.2 t.levels with
  | none => simp
  | some levels => simp [eq_comm]

theorem outcome_write {entry : Node × α} (h : t.insertNode entry = .ok t') :
    (InPlace.write entry).outcome t = some (.ok (), t') := by
  obtain ⟨levels, hplace, rfl⟩ := insertNode_eq_ok.mp h
  rw [place_eq] at hplace
  rw [InPlace.write, InPlace.outcome_get]
  dsimp only at hplace ⊢
  cases hlevel : (InPlace.opened #[] t.levels entry.1.height)[entry.1.height]? with
  | none => simp [hlevel] at hplace
  | some level =>
    by_cases hindex : level.size = entry.1.index
    · simp only [hlevel, hindex, if_true, Option.some.injEq] at hplace
      rw [InPlace.outcome_level, ← hplace]
      rfl
    · simp [hlevel, hindex] at hplace

theorem reserve_levels (t : Tree α) (entry : Node × α) :
    InPlace.reserve (t.levels.map Array.size) entry.1 =
      (t.insertNode entry).map fun t' => t'.levels.map Array.size := by
  obtain ⟨levels, frontier⟩ := t
  obtain ⟨node, value⟩ := entry
  rw [reserve_eq levels node value, Tree.insertNode]
  cases Tree.place node.height node.index value levels <;> rfl

/-- The places found for a batch are those where its nodes go one by one. -/
theorem reserveAll_levels (t : Tree α) (nodes : List (Node × α)) :
    InPlace.reserveAll t.levels nodes =
      (t.insertPerfected nodes).map fun t' => t'.levels.map Array.size := by
  induction nodes generalizing t with
  | nil => rfl
  | cons entry nodes ih =>
    rw [InPlace.reserveAll, Tree.insertPerfected, List.foldlM_cons, List.foldlM_cons,
      reserve_levels]
    cases t.insertNode entry with
    | error e => rfl
    | ok grown => exact ih grown

@[elab_as_elim] theorem insertPerfected_induction {motive : Tree α → List (Node × α) → Prop}
    (nil : motive t' [])
    (cons : ∀ t entry grown nodes, t.insertNode entry = .ok grown → motive grown nodes →
      motive t (entry :: nodes)) (h : t.insertPerfected nodes = .ok t') : motive t nodes := by
  induction nodes generalizing t with
  | nil =>
    obtain rfl : t = t' := Except.ok.inj h
    exact nil
  | cons entry nodes ih =>
    rw [Tree.insertPerfected, List.foldlM_cons] at h
    obtain ⟨grown, hentry, hrest⟩ := bind_eq_ok.mp h
    exact cons t entry grown nodes hentry (ih hrest)

theorem outcome_writes (h : t.insertPerfected nodes = .ok t') :
    (nodes.forM InPlace.write).outcome t = some (.ok (), t') := by
  refine insertPerfected_induction ?_ ?_ h
  · rfl
  · intro t entry grown nodes hentry hrest
    exact (InPlace.outcome_bind_ok _ (outcome_write hentry)).trans hrest

/-- Answers with what a call gives, and leaves the tree that it makes; a failed call leaves
the one it was made on. -/
def Tree.allOrNothing {β : Type} (t : Tree α) :
    Except MerkleError (β × Tree α) → Except MerkleError β × Tree α
  | .ok (answer, t') => (.ok answer, t')
  | .error e => (.error e, t)

theorem allOrNothing_eq {β : Type} {result : Except MerkleError (β × Tree α)}
    {answer : Except MerkleError β} : t.allOrNothing result = (answer, t') ↔
      (∃ e, answer = .error e ∧ result = .error e ∧ t' = t) ∨
        ∃ a, answer = .ok a ∧ result = .ok (a, t') := by
  cases result with
  | error e => simp [Tree.allOrNothing, eq_comm]
  | ok grown => simp [Tree.allOrNothing, Prod.ext_iff, eq_comm, and_comm]

theorem outcome_insertPerfected (t : Tree α) (nodes : List (Node × α)) :
    (InPlace.insertPerfected nodes).outcome t =
      some (t.allOrNothing ((t.insertPerfected nodes).map fun t' => ((), t'))) := by
  rw [InPlace.insertPerfected, InPlace.outcome_get, reserveAll_levels]
  cases h : t.insertPerfected nodes with
  | error e => exact InPlace.outcome_error e _
  | ok t' => exact (InPlace.outcome_ok _ _).trans (outcome_writes h)

theorem outcome_push (hne : t.levels ≠ []) (leaf : α) :
    (InPlace.push combine leaf).outcome t = some (t.allOrNothing (t.push combine leaf)) := by
  obtain ⟨leaves, above, hlevels⟩ := List.exists_cons_of_ne_nil hne
  have hfirst : t.levels[0]? = some leaves := by rw [hlevels]; rfl
  have hcount : t.count = leaves.size := by rw [Tree.count, hfirst]; rfl
  rw [InPlace.push, InPlace.outcome_get, hfirst, InPlace.outcome_level, Tree.push, hcount]
  cases Frontier.append combine t.frontier leaves.size leaf with
  | error e => exact InPlace.outcome_error e _
  | ok appended =>
    obtain ⟨nodes, frontier⟩ := appended
    have hinsert := outcome_insertPerfected t nodes
    rw [InPlace.outcome_ok]
    cases h : t.insertPerfected nodes with
    | error e =>
      rw [h] at hinsert
      rw [InPlace.outcome_bind_error _ hinsert]
      simp only [bind, Except.bind, h]
      rfl
    | ok stored =>
      rw [h] at hinsert
      rw [InPlace.outcome_bind_ok _ hinsert]
      simp only [bind, Except.bind, h]
      rfl

theorem frontier_insertNode {entry : Node × α} (h : t.insertNode entry = .ok t') :
    t'.frontier = t.frontier := by
  obtain ⟨levels, _, rfl⟩ := insertNode_eq_ok.mp h
  rfl

theorem frontier_insertPerfected (h : t.insertPerfected nodes = .ok t') :
    t'.frontier = t.frontier := by
  refine insertPerfected_induction ?_ ?_ h
  · rfl
  · intro t entry grown nodes hentry hrest
    exact hrest.trans (frontier_insertNode hentry)

/-- A node that finds room is put at the end of its level, and nothing else changes. A level
that is not there counts as an empty one. -/
theorem getD_place {height index : Nat} {value : α} {levels grown : List (Array α)}
    (h : Tree.place height index value levels = some grown) :
    (levels[height]?.getD #[]).size = index ∧ height < grown.length ∧
      ∀ i, grown[i]?.getD #[] = if i = height then (levels[height]?.getD #[]).push value
        else levels[i]?.getD #[] := by
  rw [place_eq] at h
  dsimp only at h
  have hroom := getD_opened #[] levels height
  generalize InPlace.opened #[] levels height = room at h hroom
  cases hlevel : room[height]? with
  | none => simp [hlevel] at h
  | some level =>
    by_cases hindex : level.size = index
    · simp only [hlevel, hindex, if_true, Option.some.injEq] at h
      subst h
      have hlt := (List.getElem?_eq_some_iff.mp hlevel).1
      have hsame := hroom height
      rw [hlevel, Option.getD_some] at hsame
      refine ⟨hsame ▸ hindex, by rwa [List.length_set], fun i => ?_⟩
      rw [List.getElem?_set, ← hroom i, ← hsame]
      by_cases hi : i = height
      · simp [hi, hlt]
      · simp [hi, Ne.symm hi]
    · simp [hlevel, hindex] at h

theorem stored_eq_ok {n : Node} {value : α} :
    t.stored n = .ok value ↔ (t.levels[n.height]?.getD #[])[n.index]? = some value := by
  rw [stored_eq_getD]
  cases (t.levels[n.height]?.getD #[])[n.index]? <;> simp

theorem stored_insertNode {entry : Node × α} (h : t.insertNode entry = .ok t') :
    (∀ value, t.stored entry.1 ≠ .ok value) ∧
      ∀ n value, t'.stored n = .ok value ↔ (n, value) = entry ∨ t.stored n = .ok value := by
  obtain ⟨⟨height, index⟩, placed⟩ := entry
  obtain ⟨levels, hplace, rfl⟩ := insertNode_eq_ok.mp h
  dsimp only at hplace
  obtain ⟨rfl, _, hall⟩ := getD_place hplace
  refine ⟨fun value hvalue => ?_, fun ⟨i, j⟩ value => ?_⟩
  · simp [stored_eq_ok] at hvalue
  · rw [stored_eq_ok, stored_eq_ok, hall]
    by_cases hi : i = height
    · subst hi
      rw [if_pos rfl, Array.getElem?_push]
      by_cases hj : j = (t.levels[i]?.getD #[]).size
      · simp [hj, eq_comm]
      · simp [hj]
    · simp [hi]

/-- Holds the nodes of a batch besides those that were held before, and no others. -/
structure Tree.Stores (t : Tree α) (nodes : List (Node × α)) (t' : Tree α) : Prop where
  kept : ∀ n value, t.stored n = .ok value → t'.stored n = .ok value
  placed : ∀ n value, (n, value) ∈ nodes → t'.stored n = .ok value
  only : ∀ n value, t'.stored n = .ok value → t.stored n = .ok value ∨ (n, value) ∈ nodes
  fresh : ∀ n value, (n, value) ∈ nodes → ∀ before, t.stored n ≠ .ok before
  once : (nodes.map Prod.fst).Nodup

namespace Tree.Stores

theorem refl (t : Tree α) : t.Stores [] t :=
  ⟨fun _ _ h => h, nofun, fun _ _ => Or.inl, nofun, .nil⟩

theorem of_insertNode {entry : Node × α} (h : t.insertNode entry = .ok t') :
    t.Stores [entry] t' := by
  obtain ⟨hnone, hall⟩ := stored_insertNode h
  refine ⟨?_, ?_, ?_, ?_, by simp⟩
  · intro n value hn
    exact (hall n value).mpr (.inr hn)
  · intro n value hn
    exact (hall n value).mpr (.inl (List.mem_singleton.mp hn))
  · intro n value hn
    rw [List.mem_singleton]
    exact ((hall n value).mp hn).symm
  · intro n value hn
    obtain rfl := List.mem_singleton.mp hn
    exact hnone

theorem trans {t'' : Tree α} {more : List (Node × α)} (h : t.Stores nodes t')
    (h' : t'.Stores more t'') : t.Stores (nodes ++ more) t'' := by
  refine ⟨?_, ?_, ?_, ?_, ?_⟩
  · intro n value hn
    exact h'.kept n value (h.kept n value hn)
  · intro n value hn
    rcases List.mem_append.mp hn with hn | hn
    · exact h'.kept n value (h.placed n value hn)
    · exact h'.placed n value hn
  · intro n value hn
    rw [List.mem_append]
    rcases h'.only n value hn with hn | hn
    · exact (h.only n value hn).imp_right .inl
    · exact .inr (.inr hn)
  · intro n value hn before hbefore
    rcases List.mem_append.mp hn with hn | hn
    · exact h.fresh n value hn before hbefore
    · exact h'.fresh n value hn before (h.kept n before hbefore)
  · -- A node of the first batch is stored by the time the second one comes.
    have hapart : ∀ n ∈ nodes.map Prod.fst, ∀ m ∈ more.map Prod.fst, n ≠ m := by
      rintro n hn m hm rfl
      obtain ⟨⟨_, value⟩, hfirst, rfl⟩ := List.mem_map.mp hn
      obtain ⟨⟨m, again⟩, hsecond, rfl⟩ := List.mem_map.mp hm
      exact h'.fresh m again hsecond value (h.placed m value hfirst)
    rw [List.map_append, List.nodup_append]
    exact ⟨h.once, h'.once, hapart⟩

theorem of_insertPerfected (h : t.insertPerfected nodes = .ok t') : t.Stores nodes t' := by
  refine insertPerfected_induction ?_ ?_ h
  · exact refl t'
  · intro t entry grown nodes hentry hrest
    exact (of_insertNode hentry).trans hrest

end Tree.Stores

theorem levels_insertNode_ne_nil {entry : Node × α} (h : t.insertNode entry = .ok t') :
    t'.levels ≠ [] := by
  obtain ⟨levels, hplace, rfl⟩ := insertNode_eq_ok.mp h
  exact List.ne_nil_of_length_pos (Nat.zero_lt_of_lt (getD_place hplace).2.1)

theorem levels_insertPerfected_ne_nil (hne : t.levels ≠ [])
    (h : t.insertPerfected nodes = .ok t') : t'.levels ≠ [] := by
  revert hne
  refine insertPerfected_induction ?_ ?_ h
  · exact id
  · intro t entry grown nodes hentry hrest _
    exact hrest (levels_insertNode_ne_nil hentry)

theorem push_eq_ok {leaf : α} : t.push combine leaf = .ok (nodes, t') ↔
    ∃ frontier stored, Frontier.append combine t.frontier t.count leaf = .ok (nodes, frontier) ∧
      t.insertPerfected nodes = .ok stored ∧ t' = { stored with frontier } := by
  constructor
  · intro h
    obtain ⟨⟨completed, frontier⟩, happend, hrest⟩ := bind_eq_ok.mp h
    obtain ⟨stored, hstored, hgrown⟩ := bind_eq_ok.mp hrest
    cases hgrown
    exact ⟨frontier, stored, happend, hstored, rfl⟩
  · rintro ⟨frontier, stored, happend, hstored, rfl⟩
    simp only [Tree.push, happend, hstored, bind, Except.bind]
    rfl

/-- The trees that calls with any arguments lead to, those that fail included. -/
inductive InPlace.Reachable (combine : α → α → α) : Tree α → Prop
  | empty : Reachable combine .empty
  | pushed (leaf : α) {t t' : Tree α} {answer : Except MerkleError (List (Node × α))}
      (h : Reachable combine t) (hcall : (push combine leaf).outcome t = some (answer, t')) :
      Reachable combine t'
  | inserted (nodes : List (Node × α)) {t t' : Tree α} {answer : Except MerkleError Unit}
      (h : Reachable combine t) (hcall : (insertPerfected nodes).outcome t = some (answer, t')) :
      Reachable combine t'

theorem InPlace.Reachable.levels_ne_nil (h : InPlace.Reachable combine t) : t.levels ≠ [] := by
  induction h with
  | empty => simp [Tree.empty]
  | pushed leaf _ hcall ih =>
    rw [outcome_push ih, Option.some.injEq, allOrNothing_eq] at hcall
    obtain ⟨_, _, _, rfl⟩ | ⟨nodes, _, hpush⟩ := hcall
    · exact ih
    · obtain ⟨frontier, stored, _, hstored, rfl⟩ := push_eq_ok.mp hpush
      have hne := levels_insertPerfected_ne_nil ih hstored
      exact hne
  | inserted nodes _ hcall ih =>
    rw [outcome_insertPerfected, Option.some.injEq, allOrNothing_eq] at hcall
    obtain ⟨_, _, _, rfl⟩ | ⟨_, _, hinsert⟩ := hcall
    · exact ih
    · obtain ⟨stored, hstored, hgrown⟩ := map_eq_ok.mp hinsert
      cases hgrown
      exact levels_insertPerfected_ne_nil ih hstored

theorem InPlace.reachable_inserted (combine : α → α → α) (leaf : α) :
    InPlace.Reachable combine ⟨[#[leaf]], []⟩ := by
  have hcall : (InPlace.insertPerfected [(.leaf 0, leaf)]).outcome Tree.empty =
    some (.ok (), ⟨[#[leaf]], []⟩) := rfl
  exact .inserted _ .empty hcall

/-- A call on a tree that any calls have made never names a level that is not there. If it
fails, the tree is what it was. If it does not, the nodes of its batch are stored, each in its
place, beside those that were. -/
theorem store_operations_atomic (h : InPlace.Reachable combine t) :
    (∀ nodes, ∃ answer t', (InPlace.insertPerfected nodes).outcome t = some (answer, t') ∧
      t.insertPerfected nodes = answer.map (fun _ => t') ∧
      (∀ e, answer = .error e → t' = t) ∧
      (answer = .ok () → t.Stores nodes t' ∧ t'.frontier = t.frontier)) ∧
    ∀ leaf, ∃ answer t', (InPlace.push combine leaf).outcome t = some (answer, t') ∧
      t.push combine leaf = answer.map (fun nodes => (nodes, t')) ∧
      (∀ e, answer = .error e → t' = t) ∧
      ∀ nodes, answer = .ok nodes → t.Stores nodes t' ∧
        Frontier.append combine t.frontier t.count leaf = .ok (nodes, t'.frontier) := by
  constructor
  · intro nodes
    rw [outcome_insertPerfected]
    cases hinsert : t.insertPerfected nodes with
    | error e => exact ⟨.error e, t, rfl, rfl, fun _ _ => rfl, nofun⟩
    | ok t' =>
      refine ⟨.ok (), t', rfl, rfl, nofun, fun _ => ?_⟩
      exact ⟨.of_insertPerfected hinsert, frontier_insertPerfected hinsert⟩
  · intro leaf
    rw [outcome_push h.levels_ne_nil]
    cases hpush : t.push combine leaf with
    | error e => exact ⟨.error e, t, rfl, rfl, fun _ _ => rfl, nofun⟩
    | ok grown =>
      obtain ⟨nodes, t'⟩ := grown
      refine ⟨.ok nodes, t', rfl, rfl, nofun, fun completed hcompleted => ?_⟩
      obtain rfl : nodes = completed := Except.ok.inj hcompleted
      obtain ⟨frontier, stored, happend, hstored, rfl⟩ := push_eq_ok.mp hpush
      have hstores := Tree.Stores.of_insertPerfected hstored
      exact ⟨⟨hstores.kept, hstores.placed, hstores.only, hstores.fresh, hstores.once⟩, happend⟩

/-- A tree with a leaf that was not pushed takes no batch that leaves out a node of a level it
is the first to use, and no push. -/
theorem gap_and_push_store_nothing :
    let t : Tree Nat := ⟨[#[7]], []⟩
    InPlace.Reachable (fun a b => a + b) t ∧
      (InPlace.insertPerfected [(.leaf 1, 8), (⟨1, 0⟩, 15), (⟨1, 2⟩, 9)]).outcome t =
        some (.error (.missingNode 1 2), t) ∧
      (InPlace.push (fun a b => a + b) 8).outcome t = some (.error (.frontierSize 1 0), t) := by
  intro t
  have hreach : InPlace.Reachable (fun a b => a + b) t := InPlace.reachable_inserted _ 7
  obtain ⟨hinsert, hpush⟩ := store_operations_atomic hreach
  refine ⟨hreach, ?_, ?_⟩
  · obtain ⟨answer, t', houtcome, hanswer, hkept, _⟩ :=
      hinsert [(.leaf 1, 8), (⟨1, 0⟩, 15), (⟨1, 2⟩, 9)]
    have hgap : t.insertPerfected [(.leaf 1, 8), (⟨1, 0⟩, 15), (⟨1, 2⟩, 9)] =
      .error (.missingNode 1 2) := rfl
    cases answer with
    | error e =>
      cases hgap.symm.trans hanswer
      rw [houtcome, hkept _ rfl]
    | ok answer => cases hgap.symm.trans hanswer
  · obtain ⟨answer, t', houtcome, hanswer, hkept, _⟩ := hpush 8
    have hsize : t.push (fun a b => a + b) 8 = .error (.frontierSize 1 0) := by
      simp [t, Tree.push, Tree.count, Frontier.append, popCount, bind, Except.bind]
    cases answer with
    | error e =>
      cases hsize.symm.trans hanswer
      rw [houtcome, hkept _ rfl]
    | ok nodes => cases hsize.symm.trans hanswer

end TamperEvident
