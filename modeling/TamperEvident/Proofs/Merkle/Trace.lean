import TamperEvident.Proofs.Merkle.Appended
import TamperEvident.Proofs.Merkle.Binding

/-! Values that remember what was joined on the way to them. Trees, roots and
checks take any join, so what they join is what they leave in such a value. -/

namespace TamperEvident

variable {α : Type}

structure Traced (α : Type) where
  value : α
  joins : List (α × α)

namespace Traced

def bare (value : α) : Traced α := ⟨value, []⟩

def join (combine : α → α → α) (a b : Traced α) : Traced α :=
  ⟨combine a.value b.value, (a.value, b.value) :: (a.joins ++ b.joins)⟩

def Joined (t : Traced α) (a b : α) : Prop := (a, b) ∈ t.joins

end Traced

def Step.traced (step : Step α) : Step (Traced α) := ⟨step.onLeft, .bare step.entry⟩

/-- What is joined while leaves are appended to a tree one by one and the root is
taken after each. -/
def Tree.joins (combine : α → α → α) (leaves : List α) : List (α × α) :=
  (List.range (leaves.length + 1)).flatMap fun count =>
    match Tree.ofLeaves (Traced.join combine) ((leaves.take count).map .bare) with
    | .error _ => []
    | .ok t => ((t.root (Traced.join combine)).map Traced.joins).getD []

/-- What is joined to check the steps of a proof, first those on the left alone. -/
def Step.joins (combine : α → α → α) : List (Step α) → List (α × α)
  | [] => []
  | first :: rest =>
    (((rest.filter (·.onLeft)).map traced).foldl (Step.apply (Traced.join combine))
        (.bare first.entry)).joins ++
      ((rest.map traced).foldl (Step.apply (Traced.join combine)) (.bare first.entry)).joins

variable {combine : α → α → α}

theorem exists_traced_root {leaves : List α} {root : α} (h : listRoot combine leaves = some root) :
    ∃ t, listRoot (Traced.join combine) (leaves.map .bare) = some t ∧ t.value = root ∧
      RootWithin combine t.Joined leaves root := by
  have hne := ne_nil_of_listRoot h
  induction leaves, hne using cutInduction generalizing root with
  | leaf x =>
    rw [listRoot_singleton] at h
    obtain rfl := Option.some.inj h
    exact ⟨.bare x, listRoot_singleton _, rfl, .leaf x⟩
  | join as bs has hbs hcut iha ihb =>
    obtain ⟨left, right, hl, hr, hroot⟩ := exists_listRoot_append combine has hbs hcut
    obtain rfl := Option.some.inj (hroot.symm.trans h)
    obtain ⟨t, ht, hleft, hwithin⟩ := iha hl
    obtain ⟨u, hu, hright, hwithin'⟩ := ihb hr
    refine ⟨t.join combine u, ?_, ?_, ?_⟩
    · have hcut' : (as.map Traced.bare).length =
          splitPoint (as.map Traced.bare ++ bs.map Traced.bare).length := by
        simpa only [List.length_append, List.length_map] using hcut
      rw [List.map_append, listRoot_append (by simpa using has) (by simpa using hbs) hcut', ht, hu]
      rfl
    · rw [Traced.join, hleft, hright]
    · refine .join (hwithin.mono ?_) (hwithin'.mono ?_) hcut ?_
      · exact fun a b hab => List.mem_cons_of_mem _ (List.mem_append_left _ hab)
      · exact fun a b hab => List.mem_cons_of_mem _ (List.mem_append_right _ hab)
      · rw [← hleft, ← hright]
        exact List.mem_cons_self

theorem FoldWithin.mono {J K : α → α → Prop} (hK : ∀ a b, J a b → K a b) {value : α}
    {steps : List (Step α)} (h : FoldWithin combine J value steps) :
    FoldWithin combine K value steps := by
  induction steps generalizing value with
  | nil => trivial
  | cons step rest ih =>
    refine ⟨?_, ih h.2⟩
    have hstep := h.1
    split
    · rw [if_pos ‹_›] at hstep
      exact hK _ _ hstep
    · rw [if_neg ‹_›] at hstep
      exact hK _ _ hstep

theorem value_apply (t : Traced α) (step : Step α) :
    (step.traced.apply (Traced.join combine) t).value = step.apply combine t.value := by
  cases step with
  | mk onLeft entry => cases onLeft <;> rfl

/-- A traced fold holds the pairs of every step, and those it began with. -/
theorem foldWithin_traced (t : Traced α) (steps : List (Step α)) :
    let u := (steps.map Step.traced).foldl (Step.apply (Traced.join combine)) t
    (∀ a b, t.Joined a b → u.Joined a b) ∧ FoldWithin combine u.Joined t.value steps := by
  induction steps generalizing t with
  | nil => exact ⟨fun _ _ h => h, trivial⟩
  | cons step rest ih =>
    obtain ⟨hbefore, hrest⟩ := ih (step.traced.apply (Traced.join combine) t)
    rw [value_apply] at hrest
    refine ⟨fun a b hab => hbefore a b ?_, ?_, hrest⟩
    · cases step with
      | mk onLeft entry =>
        cases onLeft
        · exact List.mem_cons_of_mem _ (List.mem_append_left _ hab)
        · exact List.mem_cons_of_mem _ (List.mem_append_right _ hab)
    · cases step with
      | mk onLeft entry =>
        cases onLeft
        · exact hbefore _ _ List.mem_cons_self
        · exact hbefore _ _ List.mem_cons_self

theorem foldWithin_joins (first : Step α) (rest : List (Step α)) :
    let J := fun a b => (a, b) ∈ Step.joins combine (first :: rest)
    FoldWithin combine J first.entry (rest.filter (·.onLeft)) ∧
      FoldWithin combine J first.entry rest := by
  constructor
  · exact (foldWithin_traced (.bare first.entry) (rest.filter (·.onLeft))).2.mono
      fun a b hab => List.mem_append_left _ hab
  · exact (foldWithin_traced (.bare first.entry) rest).2.mono
      fun a b hab => List.mem_append_right _ hab

theorem rootWithin_joins {leaves : List α} {count : Nat} (hcount : count ≤ leaves.length)
    {root : α} (h : listRoot combine (leaves.take count) = some root) :
    RootWithin combine (fun a b => (a, b) ∈ Tree.joins combine leaves) (leaves.take count)
      root := by
  obtain ⟨t, ht, _, hwithin⟩ := exists_traced_root h
  refine hwithin.mono fun a b hab => ?_
  rw [Tree.joins, List.mem_flatMap]
  refine ⟨count, List.mem_range.mpr (Nat.lt_succ_of_le hcount), ?_⟩
  rw [ofLeaves_eq]
  simp only [root_treeOf, ht, Option.map_some, Option.getD_some]
  exact hab

end TamperEvident
