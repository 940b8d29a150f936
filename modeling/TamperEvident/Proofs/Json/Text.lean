import TamperEvident.Json.Value
import TamperEvident.Proofs.Json.Literal
import TamperEvident.Proofs.Json.Numeral

/-! Compact text is read back as the document it was written for. Every reader
takes fuel, and the text itself has more than enough of it. -/

namespace TamperEvident.Json

def Number.numeral : Number → Numeral
  | natural value => ⟨false, Nat.toDigits 10 value.toNat, none, none⟩
  | negative offset => ⟨true, Nat.toDigits 10 (offset + 1), none, none⟩
  | float value => ⟨value.negative, [], none, none⟩

namespace Value

mutual

def document : Value → Json
  | null => .null
  | bool value => .bool value
  | number value => .number value.numeral
  | string value => .string (some value)
  | array items => .array (documents items)
  | object members => .object (memberDocuments members)

def documents : List Value → List Json
  | [] => []
  | item :: rest => item.document :: documents rest

def memberDocuments : List (String × Value) → List (Literal × Json)
  | [] => []
  | (name, item) :: rest => (some name, item.document) :: memberDocuments rest

end

mutual

/-- Whether no number in a value is a double. -/
def FloatFree : Value → Prop
  | number (.float _) => False
  | null | bool _ | number _ | string _ => True
  | array items => ItemsFloatFree items
  | object members => MembersFloatFree members

def ItemsFloatFree : List Value → Prop
  | [] => True
  | item :: rest => item.FloatFree ∧ ItemsFloatFree rest

def MembersFloatFree : List (String × Value) → Prop
  | [] => True
  | (_, item) :: rest => item.FloatFree ∧ MembersFloatFree rest

end

end Value

theorem skipBlank_cons {c : Char} (h : isBlank c = false) (rest : List Char) :
    skipBlank (c :: rest) = c :: rest := List.dropWhile_cons_of_neg (by simp [h])

theorem isBlank_of_isDigit {c : Char} (hc : isDigit c = true) : isBlank c = false := by
  rw [Bool.eq_false_iff]
  intro h
  simp only [isBlank, Bool.or_eq_true, beq_iff_eq] at h
  rcases h with ((rfl | rfl) | rfl) | rfl <;> simp [isDigit] at hc

theorem value_digit {c : Char} (hc : isDigit c = true) (fuel : Nat) (rest : List Char) :
    value (fuel + 1) (c :: rest) =
      (numeral false (c :: rest)).map fun (found, rest) => (.number found, rest) := by
  rw [value, skipBlank_cons (isBlank_of_isDigit hc)]
  split <;> first | rfl | (rename_i h; obtain ⟨rfl, _⟩ := List.cons.inj h; simp [isDigit] at hc)

theorem value_bracket {c : Char} (hblank : isBlank c = false) (hclose : c ≠ ']') (fuel : Nat)
    (rest : List Char) :
    value (fuel + 1) ('[' :: c :: rest) =
      (items fuel (c :: rest)).map fun (found, rest) => (.array found, rest) := by
  rw [value, skipBlank_cons (by decide)]
  simp only [skipBlank_cons hblank]
  split
  · rename_i h
    exact absurd (List.cons.inj h).1 hclose
  · rfl

theorem value_brace (fuel : Nat) (rest : List Char) :
    value (fuel + 1) ('\x7b' :: '"' :: rest) =
      (members fuel ('"' :: rest)).map fun (found, rest) => (.object found, rest) := rfl

theorem exists_toDigits (n : Nat) :
    ∃ c rest, Nat.toDigits 10 n = c :: rest ∧ isDigit c = true := by
  obtain ⟨c, rest, h⟩ := List.exists_cons_of_ne_nil (@Nat.toDigits_ne_nil n 10)
  exact ⟨c, rest, h, isDigit_of_mem_toDigits c (h ▸ List.mem_cons_self)⟩

/-- What is written starts with a mark that is not skipped and closes nothing. -/
theorem write_eq_cons {v : Value} (h : v.FloatFree) :
    ∃ c rest, v.write = c :: rest ∧ isBlank c = false ∧ c ≠ ']' := by
  cases v with
  | null => exact ⟨_, _, rfl, by decide, by decide⟩
  | bool value => cases value <;> exact ⟨_, _, rfl, by decide, by decide⟩
  | string value => exact ⟨_, _, rfl, by decide, by decide⟩
  | array items => cases items <;> exact ⟨_, _, rfl, by decide, by decide⟩
  | object members => cases members <;> exact ⟨_, _, rfl, by decide, by decide⟩
  | number value =>
    cases value with
    | float value => cases h
    | negative offset => exact ⟨_, _, rfl, by decide, by decide⟩
    | natural value =>
      obtain ⟨c, rest, heq, hc⟩ := exists_toDigits value.toNat
      refine ⟨c, rest, heq, isBlank_of_isDigit hc, ?_⟩
      rintro rfl
      simp [isDigit] at hc

/-- Reading with so much fuel gives back what was written within it. -/
structure ReadsBack (fuel : Nat) : Prop where
  ofValue : ∀ (v : Value) (rest : List Char), v.FloatFree → Closes rest →
    2 * v.write.length ≤ fuel → value fuel (v.write ++ rest) = some (v.document, rest)
  ofItems : ∀ (item : Value) (more : List Value) (rest : List Char),
    Value.ItemsFloatFree (item :: more) →
    2 * (item.write.length + (Value.writeItems more).length) < fuel →
    items fuel (item.write ++ (Value.writeItems more ++ rest)) =
      some (Value.documents (item :: more), rest)
  ofMembers : ∀ (name : String) (item : Value) (more : List (String × Value)) (rest : List Char),
    Value.MembersFloatFree ((name, item) :: more) →
    2 * (item.write.length + (Value.writeMembers more).length) < fuel →
    members fuel (quote name ++ ':' :: (item.write ++ (Value.writeMembers more ++ rest))) =
      some (Value.memberDocuments ((name, item) :: more), rest)

theorem quote_append (s : String) (rest : List Char) :
    quote s ++ rest = '"' :: (s.toList.flatMap escape ++ '"' :: rest) := by
  simp [quote]

namespace ReadsBack

variable {fuel : Nat}

theorem closes_writeItems (items : List Value) (rest : List Char) :
    Closes (Value.writeItems items ++ rest) := by
  cases items <;> exact closes_cons (by decide) _

theorem closes_writeMembers (members : List (String × Value)) (rest : List Char) :
    Closes (Value.writeMembers members ++ rest) := by
  cases members <;> exact closes_cons (by decide) _

theorem number_succ {n : Number} (h : (Value.number n).FloatFree) {rest : List Char}
    (hrest : Closes rest) :
    value (fuel + 1) (n.write ++ rest) = some (.number n.numeral, rest) := by
  cases n with
  | float value => cases h
  | negative offset =>
    rw [Number.write, List.cons_append, value, skipBlank_cons (by decide)]
    simp only [numeral_toDigits true _ hrest]
    rfl
  | natural n =>
    have hread := numeral_toDigits false n.toNat hrest
    obtain ⟨c, more, heq, hc⟩ := exists_toDigits n.toNat
    rw [Number.write, heq, List.cons_append, value_digit hc, ← List.cons_append, ← heq, hread]
    rfl

theorem array_succ (h : ReadsBack fuel) {found : List Value}
    (hfree : (Value.array found).FloatFree) (rest : List Char)
    (hlen : 2 * (Value.array found).write.length ≤ fuel + 1) :
    value (fuel + 1) ((Value.array found).write ++ rest) =
      some ((Value.array found).document, rest) := by
  cases found with
  | nil => rfl
  | cons first more =>
    obtain ⟨c, text, heq, hc, hclose⟩ := write_eq_cons hfree.1
    simp only [Value.write, List.length_cons, List.length_append] at hlen
    have hread := h.ofItems first more rest hfree (by omega)
    rw [heq, List.cons_append] at hread
    rw [Value.write, List.cons_append, List.cons_append, List.append_assoc, heq, List.cons_append,
      value_bracket hc hclose, hread]
    rfl

theorem object_succ (h : ReadsBack fuel) {found : List (String × Value)}
    (hfree : (Value.object found).FloatFree) (rest : List Char)
    (hlen : 2 * (Value.object found).write.length ≤ fuel + 1) :
    value (fuel + 1) ((Value.object found).write ++ rest) =
      some ((Value.object found).document, rest) := by
  cases found with
  | nil => rfl
  | cons first more =>
    obtain ⟨name, item⟩ := first
    simp only [Value.write, List.length_cons, List.length_append] at hlen
    have hread := h.ofMembers name item more rest hfree (by omega)
    rw [quote_append] at hread
    simp only [Value.write, List.cons_append, List.append_assoc, quote_append]
    rw [value_brace, hread]
    rfl

theorem value_succ (h : ReadsBack fuel) (v : Value) (rest : List Char) (hfree : v.FloatFree)
    (hrest : Closes rest) (hlen : 2 * v.write.length ≤ fuel + 1) :
    value (fuel + 1) (v.write ++ rest) = some (v.document, rest) := by
  cases v with
  | null => rfl
  | bool found => cases found <;> rfl
  | number found => exact number_succ hfree hrest
  | array items => exact h.array_succ hfree rest hlen
  | object members => exact h.object_succ hfree rest hlen
  | string found =>
    rw [Value.write, quote_append, value, skipBlank_cons (by decide)]
    simp only [literal_quote]
    rfl

theorem items_succ (h : ReadsBack fuel) (item : Value) (more : List Value) (rest : List Char)
    (hfree : Value.ItemsFloatFree (item :: more))
    (hlen : 2 * (item.write.length + (Value.writeItems more).length) < fuel + 1) :
    items (fuel + 1) (item.write ++ (Value.writeItems more ++ rest)) =
      some (Value.documents (item :: more), rest) := by
  have hitem := h.ofValue item (Value.writeItems more ++ rest) hfree.1
    (closes_writeItems more rest) (by omega)
  rw [items, hitem]
  cases more with
  | nil => rfl
  | cons second more =>
    simp only [Value.writeItems, List.length_cons, List.length_append] at hlen
    have hmore := h.ofItems second more rest hfree.2 (by omega)
    simp only [bind, Option.bind, Value.writeItems, List.cons_append, List.append_assoc,
      skipBlank_cons (show isBlank ',' = false by decide), hmore]
    rfl

theorem members_succ (h : ReadsBack fuel) (name : String) (item : Value)
    (more : List (String × Value)) (rest : List Char)
    (hfree : Value.MembersFloatFree ((name, item) :: more))
    (hlen : 2 * (item.write.length + (Value.writeMembers more).length) < fuel + 1) :
    members (fuel + 1) (quote name ++ ':' :: (item.write ++ (Value.writeMembers more ++ rest))) =
      some (Value.memberDocuments ((name, item) :: more), rest) := by
  have hitem := h.ofValue item (Value.writeMembers more ++ rest) hfree.1
    (closes_writeMembers more rest) (by omega)
  rw [quote_append, members, skipBlank_cons (by decide)]
  simp only [bind, Option.bind, literal_quote, skipBlank_cons (show isBlank ':' = false by decide),
    hitem]
  cases more with
  | nil => rfl
  | cons second more =>
    obtain ⟨name', item'⟩ := second
    simp only [Value.writeMembers, List.length_cons, List.length_append] at hlen
    have hmore := h.ofMembers name' item' more rest hfree.2 (by omega)
    simp only [Value.writeMembers, List.cons_append, List.append_assoc,
      skipBlank_cons (show isBlank ',' = false by decide), hmore]
    rfl

end ReadsBack

theorem readsBack (fuel : Nat) : ReadsBack fuel := by
  induction fuel with
  | zero =>
    refine ⟨?_, ?_, ?_⟩
    · intro v rest hfree _ hlen
      obtain ⟨c, more, heq, _⟩ := write_eq_cons hfree
      simp [heq] at hlen
    · intro item more rest _ hlen
      cases hlen
    · intro name item more rest _ hlen
      cases hlen
  | succ fuel ih => exact ⟨ih.value_succ, ih.items_succ, ih.members_succ⟩

theorem parse_text {v : Value} (h : v.FloatFree) : parse v.text = some v.document := by
  have hread := (readsBack (2 * v.write.length + 2)).ofValue v [] h closes_nil (by omega)
  rw [List.append_nil] at hread
  rw [parse, Value.text, String.toList_ofList, hread]
  rfl

end TamperEvident.Json
