/-! Computations that may fail, opened from their result: what has to have gone well
for a value, and which of the things that can go wrong did for an error. -/

namespace TamperEvident

theorem bind_eq_ok {ε α β : Type} {x : Except ε α} {f : α → Except ε β} {b : β} :
    x >>= f = .ok b ↔ ∃ a, x = .ok a ∧ f a = .ok b := by
  cases x with
  | error e => simp [bind, Except.bind]
  | ok a => simp [bind, Except.bind]

theorem map_eq_ok {ε α β : Type} {x : Except ε α} {f : α → β} {b : β} :
    x.map f = .ok b ↔ ∃ a, x = .ok a ∧ f a = b := by
  cases x with
  | error e => simp [Except.map]
  | ok a => simp [Except.map]

theorem bind_eq_error {ε α β : Type} {x : Except ε α} {f : α → Except ε β} {e : ε} :
    x >>= f = .error e ↔ x = .error e ∨ ∃ a, x = .ok a ∧ f a = .error e := by
  cases x with
  | error e' => simp [bind, Except.bind]
  | ok a => simp [bind, Except.bind]

theorem map_eq_error {ε α β : Type} {x : Except ε α} {f : α → β} {e : ε} :
    x.map f = .error e ↔ x = .error e := by
  cases x with
  | error e' => simp [Except.map]
  | ok a => simp [Except.map]

theorem mapError_eq_ok {ε ε' α : Type} {f : ε → ε'} {x : Except ε α} {a : α} :
    x.mapError f = .ok a ↔ x = .ok a := by
  cases x with
  | error e => exact ⟨nofun, nofun⟩
  | ok b =>
    change (Except.ok b : Except ε' α) = .ok a ↔ _
    rw [Except.ok.injEq, Except.ok.injEq]

theorem map_bind {ε α β γ : Type} (x : Except ε α) (f : α → β) (next : β → Except ε γ) :
    x.map f >>= next = x >>= fun a => next (f a) := by
  cases x with
  | error e => rfl
  | ok a => rfl

def recast {ε ε' α β : Type} (f : ε → ε') (g : α → β) : Except ε α → Except ε' β
  | .error e => .error (f e)
  | .ok a => .ok (g a)

theorem recast_eq_ok {ε ε' α β : Type} {f : ε → ε'} {g : α → β} {x : Except ε α} {b : β} :
    recast f g x = .ok b ↔ ∃ a, x = .ok a ∧ g a = b := by
  cases x with
  | error e => simp [recast]
  | ok a => simp [recast]

theorem recast_bind {ε ε' α β γ δ : Type} {f : ε → ε'} {g : α → β} {k : γ → δ}
    {next : α → Except ε γ} {next' : β → Except ε' δ} (h : ∀ a, next' (g a) = recast f k (next a))
    (x : Except ε α) : recast f g x >>= next' = recast f k (x >>= next) := by
  cases x with
  | error e => rfl
  | ok a => exact h a

/-- Two tests one after the other, each with an error of its own. -/
theorem eq_error_of_tests {ε α : Type} {x : Except ε α} {p q : Prop} {first second e : ε}
    (hfirst : p → x = .error first) (hsecond : ¬ p → q → x = .error second)
    (hok : ¬ p → ¬ q → ∃ a, x = .ok a) :
    x = .error e ↔ p ∧ e = first ∨ ¬ p ∧ q ∧ e = second := by
  by_cases hp : p
  · simp [hfirst hp, hp, eq_comm]
  · by_cases hq : q
    · simp [hsecond hp hq, hp, hq, eq_comm]
    · obtain ⟨a, ha⟩ := hok hp hq
      simp [ha, hp, hq]

/-- A place in a list, with all that comes before it, is one of the places before the last one or
the last one. -/
theorem exists_split_concat {α : Type} {l : List α} {last : α} {P : List α → α → Prop} :
    (∃ before x after, l ++ [last] = before ++ x :: after ∧ P before x) ↔
      (∃ before x after, l = before ++ x :: after ∧ P before x) ∨ P l last := by
  constructor
  · rintro ⟨before, x, after, hsplit, h⟩
    rcases List.eq_nil_or_concat after with rfl | ⟨after, y, rfl⟩
    · obtain ⟨rfl, hlast⟩ := List.append_inj' hsplit rfl
      obtain rfl := List.singleton_inj.mp hlast
      exact .inr h
    · rw [List.concat_eq_append, ← List.cons_append, ← List.append_assoc] at hsplit
      exact .inl ⟨before, x, after, (List.append_inj' hsplit rfl).1, h⟩
  · rintro (⟨before, x, after, rfl, h⟩ | h)
    · exact ⟨before, x, after ++ [last], by simp, h⟩
    · exact ⟨l, last, [], rfl, h⟩

end TamperEvident
