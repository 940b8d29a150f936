import TamperEvident.Proofs.Merkle.Soundness

/-! Accepted proofs that are tampered with. A join that can be taken apart gives back the
value that a step was applied to and the value of the step itself. So a root fixes every
value on the way to it, once it is known on which side each step stands. -/

namespace TamperEvident

variable {α : Type} {combine : α → α → α}

def Step.flip (step : Step α) : Step α := ⟨!step.onLeft, step.entry⟩

theorem Step.eq_of_apply (hinj : Function.Injective2 combine) {step step' : Step α}
    (hside : step'.onLeft = step.onLeft) {value value' : α}
    (h : step'.apply combine value' = step.apply combine value) :
    value' = value ∧ step' = step := by
  obtain ⟨side, entry⟩ := step
  obtain ⟨side', entry'⟩ := step'
  obtain rfl : side' = side := hside
  cases side' with
  | true =>
    obtain ⟨hentry, hvalue⟩ := hinj (show combine entry' value' = combine entry value from h)
    exact ⟨hvalue, by rw [hentry]⟩
  | false =>
    obtain ⟨hvalue, hentry⟩ := hinj (show combine value' entry' = combine value entry from h)
    exact ⟨hvalue, by rw [hentry]⟩

theorem Step.apply_flip_iff (hinj : Function.Injective2 combine) (step : Step α) (value : α) :
    step.flip.apply combine value = step.apply combine value ↔ step.entry = value := by
  obtain ⟨side, entry⟩ := step
  constructor
  · intro h
    cases side with
    | true => exact (hinj (show combine value entry = combine entry value from h)).2
    | false => exact (hinj (show combine entry value = combine value entry from h)).1
  · rintro rfl
    cases side <;> rfl

/-- Steps on the same sides that lead to the same value are the same steps, and set out from
the same value. -/
theorem eq_of_folds (hinj : Function.Injective2 combine) {steps steps' : List (Step α)}
    (hsides : steps'.map (·.onLeft) = steps.map (·.onLeft)) {value value' : α}
    (h : steps'.foldl (Step.apply combine) value' = steps.foldl (Step.apply combine) value) :
    value' = value ∧ steps' = steps := by
  induction steps generalizing steps' value value' with
  | nil =>
    obtain rfl := List.map_eq_nil_iff.mp hsides
    exact ⟨h, rfl⟩
  | cons step rest ih =>
    obtain ⟨step', rest', rfl, hside, hrest⟩ := List.map_eq_cons_iff.mp hsides
    obtain ⟨happly, hsame⟩ := ih hrest h
    obtain ⟨hvalue, hstep⟩ := Step.eq_of_apply hinj hside happly
    exact ⟨hvalue, by rw [hstep, hsame]⟩

theorem eq_of_sides_of_entries {steps steps' : List (Step α)}
    (hsides : steps'.map (·.onLeft) = steps.map (·.onLeft))
    (hentries : steps'.map (·.entry) = steps.map (·.entry)) : steps' = steps := by
  induction steps generalizing steps' with
  | nil => exact List.map_eq_nil_iff.mp hsides
  | cons step rest ih =>
    obtain ⟨step', rest', rfl, hside, hrest⟩ := List.map_eq_cons_iff.mp hsides
    obtain ⟨hentry, hmore⟩ := List.cons.inj hentries
    obtain ⟨side, entry⟩ := step
    obtain ⟨side', entry'⟩ := step'
    simp only at hside hentry
    rw [hside, hentry, ih hrest hmore]

variable [DecidableEq α] {leaf root old new : α} {first : Step α} {rest steps steps' : List (Step α)}

theorem inclusionHolds_cons :
    inclusionHolds combine leaf root (first :: rest) = true ↔
      first.entry = leaf ∧ rest.foldl (Step.apply combine) first.entry = root := by
  simp only [inclusionHolds, Bool.and_eq_true, beq_iff_eq]

theorem consistencyHolds_cons :
    consistencyHolds combine old new (first :: rest) = true ↔
      (rest.filter (·.onLeft)).foldl (Step.apply combine) first.entry = old ∧
        rest.foldl (Step.apply combine) first.entry = new := by
  simp only [consistencyHolds, Bool.and_eq_true, beq_iff_eq]

theorem exists_of_inclusionHolds (h : inclusionHolds combine leaf root steps = true) :
    ∃ first rest, steps = first :: rest ∧ first.entry = leaf ∧
      rest.foldl (Step.apply combine) first.entry = root := by
  cases steps with
  | nil => simp [inclusionHolds] at h
  | cons first rest => exact ⟨first, rest, rfl, inclusionHolds_cons.mp h⟩

theorem exists_of_consistencyHolds (h : consistencyHolds combine old new steps = true) :
    ∃ first rest, steps = first :: rest ∧
      (rest.filter (·.onLeft)).foldl (Step.apply combine) first.entry = old ∧
      rest.foldl (Step.apply combine) first.entry = new := by
  cases steps with
  | nil => simp [consistencyHolds] at h
  | cons first rest => exact ⟨first, rest, rfl, consistencyHolds_cons.mp h⟩

theorem inclusionHolds_iff_same (hinj : Function.Injective2 combine)
    (h : inclusionHolds combine leaf root steps = true)
    (hsides : steps'.tail.map (·.onLeft) = steps.tail.map (·.onLeft)) (leaf' : α) :
    inclusionHolds combine leaf' root steps' = true ↔
      leaf' = leaf ∧ steps'.map (·.entry) = steps.map (·.entry) := by
  obtain ⟨first, rest, rfl, rfl, rfl⟩ := exists_of_inclusionHolds h
  constructor
  · intro h'
    obtain ⟨first', rest', rfl, rfl, hroot⟩ := exists_of_inclusionHolds h'
    obtain ⟨hfirst, rfl⟩ : first'.entry = first.entry ∧ rest' = rest :=
      eq_of_folds hinj hsides hroot
    refine ⟨hfirst, ?_⟩
    rw [List.map_cons, List.map_cons, hfirst]
  · rintro ⟨rfl, hentries⟩
    obtain ⟨first', rest', rfl, hfirst, hmore⟩ := List.map_eq_cons_iff.mp hentries
    obtain rfl := eq_of_sides_of_entries hsides hmore
    rw [inclusionHolds_cons, hfirst]
    exact ⟨rfl, rfl⟩

theorem consistencyHolds_iff_same (hinj : Function.Injective2 combine)
    (h : consistencyHolds combine old new steps = true)
    (hsides : steps'.tail.map (·.onLeft) = steps.tail.map (·.onLeft)) (old' : α) :
    consistencyHolds combine old' new steps' = true ↔
      old' = old ∧ steps'.map (·.entry) = steps.map (·.entry) := by
  obtain ⟨first, rest, rfl, rfl, rfl⟩ := exists_of_consistencyHolds h
  constructor
  · intro h'
    obtain ⟨first', rest', rfl, rfl, hnew⟩ := exists_of_consistencyHolds h'
    obtain ⟨hfirst, rfl⟩ : first'.entry = first.entry ∧ rest' = rest :=
      eq_of_folds hinj hsides hnew
    refine ⟨?_, ?_⟩
    · rw [hfirst]
    · rw [List.map_cons, List.map_cons, hfirst]
  · rintro ⟨rfl, hentries⟩
    obtain ⟨first', rest', rfl, hfirst, hmore⟩ := List.map_eq_cons_iff.mp hentries
    obtain rfl := eq_of_sides_of_entries hsides hmore
    rw [consistencyHolds_cons, hfirst]
    exact ⟨rfl, rfl⟩

theorem inclusionHolds_flip_iff (hinj : Function.Injective2 combine)
    {before after : List (Step α)} {step : Step α}
    (h : inclusionHolds combine leaf root (first :: (before ++ step :: after)) = true) :
    inclusionHolds combine leaf root (first :: (before ++ step.flip :: after)) = true ↔
      step.entry = before.foldl (Step.apply combine) first.entry := by
  obtain ⟨hleaf, hroot⟩ := inclusionHolds_cons.mp h
  rw [List.foldl_append, List.foldl_cons] at hroot
  constructor
  · intro h'
    obtain ⟨_, hroot'⟩ := inclusionHolds_cons.mp h'
    rw [List.foldl_append, List.foldl_cons, ← hroot] at hroot'
    exact (Step.apply_flip_iff hinj step _).mp (eq_of_folds hinj rfl hroot').1
  · intro hvalue
    refine inclusionHolds_cons.mpr ⟨hleaf, ?_⟩
    rw [List.foldl_append, List.foldl_cons, (Step.apply_flip_iff hinj step _).mpr hvalue, hroot]

/-- Of what is accepted no part can be exchanged. Between one leaf and one root, or between an
older root and a newer one, steps on given sides have at most one choice of values, and no
other leaf or root goes with them. A step may change sides only if it is joined with its
like. -/
theorem tampering_rejected (hinj : Function.Injective2 combine) :
    (∀ leaf root steps, inclusionHolds combine leaf root steps = true →
      (∀ leaf' steps', steps'.tail.map (·.onLeft) = steps.tail.map (·.onLeft) →
        (inclusionHolds combine leaf' root steps' = true ↔
          leaf' = leaf ∧ steps'.map (·.entry) = steps.map (·.entry))) ∧
      (∀ root', inclusionHolds combine leaf root' steps = true ↔ root' = root) ∧
      ∀ first before step after, steps = first :: (before ++ step :: after) →
        (inclusionHolds combine leaf root (first :: (before ++ step.flip :: after)) = true ↔
          step.entry = before.foldl (Step.apply combine) first.entry)) ∧
    ∀ old new steps, consistencyHolds combine old new steps = true →
      (∀ old' steps', steps'.tail.map (·.onLeft) = steps.tail.map (·.onLeft) →
        (consistencyHolds combine old' new steps' = true ↔
          old' = old ∧ steps'.map (·.entry) = steps.map (·.entry))) ∧
      ∀ new', consistencyHolds combine old new' steps = true ↔ new' = new := by
  constructor
  · intro leaf root steps h
    refine ⟨fun leaf' steps' hsides => inclusionHolds_iff_same hinj h hsides leaf', ?_, ?_⟩
    · intro root'
      obtain ⟨first, rest, rfl, hleaf, rfl⟩ := exists_of_inclusionHolds h
      rw [inclusionHolds_cons, and_iff_right hleaf, eq_comm]
    · rintro first before step after rfl
      exact inclusionHolds_flip_iff hinj h
  · intro old new steps h
    refine ⟨fun old' steps' hsides => consistencyHolds_iff_same hinj h hsides old', ?_⟩
    intro new'
    obtain ⟨first, rest, rfl, hold, rfl⟩ := exists_of_consistencyHolds h
    rw [consistencyHolds_cons, and_iff_right hold, eq_comm]

/-- The fourth of five leaves with its second step on the other side, with another last value
and for another leaf; three leaves shown to be older than five with another first value. -/
theorem tampering_rejected_five :
    inclusionHolds (fun a b : FreeMagma Nat => a * b) (.of 3)
        (.of 0 * .of 1 * (.of 2 * .of 3) * .of 4)
        [⟨false, .of 3⟩, ⟨true, .of 2⟩, ⟨true, .of 0 * .of 1⟩, ⟨false, .of 4⟩] = true ∧
      ¬ inclusionHolds (fun a b : FreeMagma Nat => a * b) (.of 3)
        (.of 0 * .of 1 * (.of 2 * .of 3) * .of 4)
        [⟨false, .of 3⟩, ⟨false, .of 2⟩, ⟨true, .of 0 * .of 1⟩, ⟨false, .of 4⟩] = true ∧
      (∀ leaf last, inclusionHolds (fun a b : FreeMagma Nat => a * b) leaf
          (.of 0 * .of 1 * (.of 2 * .of 3) * .of 4)
          [⟨true, leaf⟩, ⟨true, .of 2⟩, ⟨true, .of 0 * .of 1⟩, ⟨false, last⟩] = true ↔
        leaf = .of 3 ∧ last = .of 4) ∧
      consistencyHolds (fun a b : FreeMagma Nat => a * b) (.of 0 * .of 1 * .of 2)
        (.of 0 * .of 1 * (.of 2 * .of 3) * .of 4)
        [⟨true, .of 2⟩, ⟨false, .of 3⟩, ⟨true, .of 0 * .of 1⟩, ⟨false, .of 4⟩] = true ∧
      ∀ old first, consistencyHolds (fun a b : FreeMagma Nat => a * b) old
          (.of 0 * .of 1 * (.of 2 * .of 3) * .of 4)
          [⟨true, first⟩, ⟨false, .of 3⟩, ⟨true, .of 0 * .of 1⟩, ⟨false, .of 4⟩] = true ↔
        old = .of 0 * .of 1 * .of 2 ∧ first = .of 2 := by
  have hplaced : inclusionHolds (fun a b : FreeMagma Nat => a * b) (.of 3)
      (.of 0 * .of 1 * (.of 2 * .of 3) * .of 4)
      [⟨false, .of 3⟩, ⟨true, .of 2⟩, ⟨true, .of 0 * .of 1⟩, ⟨false, .of 4⟩] = true := by decide
  have holder : consistencyHolds (fun a b : FreeMagma Nat => a * b) (.of 0 * .of 1 * .of 2)
      (.of 0 * .of 1 * (.of 2 * .of 3) * .of 4)
      [⟨true, .of 2⟩, ⟨false, .of 3⟩, ⟨true, .of 0 * .of 1⟩, ⟨false, .of 4⟩] = true := by decide
  obtain ⟨hvalues, _, hflip⟩ := (tampering_rejected mul_injective2).1 _ _ _ hplaced
  have hvalues' := ((tampering_rejected mul_injective2).2 _ _ _ holder).1
  refine ⟨hplaced, ?_, ?_, holder, ?_⟩
  · intro h
    have := (hflip ⟨false, .of 3⟩ [] ⟨true, .of 2⟩ _ rfl).mp h
    revert this
    decide
  · intro leaf last
    refine (hvalues leaf _ ?_).trans ?_
    · rfl
    · simp only [List.map_cons, List.map_nil, List.cons.injEq, and_true, true_and]
      exact ⟨fun h => h.2, fun h => ⟨h.1, h⟩⟩
  · intro old first
    refine (hvalues' old _ ?_).trans ?_
    · rfl
    · simp only [List.map_cons, List.map_nil, List.cons.injEq, and_true]

end TamperEvident
