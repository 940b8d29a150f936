import TamperEvident.Json.Data
import TamperEvident.Proofs.Json.Text
import TamperEvident.Proofs.Table

/-! Data read from the document it was written as is the same data, just as long as
the containers in it are not nested too deep. -/

namespace TamperEvident.Json

namespace Value

mutual

def nesting : Value → Nat
  | null | bool _ | number _ | string _ => 0
  | array items => itemsNesting items + 1
  | object members => membersNesting members + 1

def itemsNesting : List Value → Nat
  | [] => 0
  | item :: rest => max item.nesting (itemsNesting rest)

def membersNesting : List (String × Value) → Nat
  | [] => 0
  | (_, item) :: rest => max item.nesting (membersNesting rest)

end

theorem numberOf_numeral {n : Number} (h : (number n).FloatFree) :
    numberOf n.numeral = some n := by
  cases n with
  | natural value => exact numberOf_natural value
  | negative offset => exact numberOf_negative offset
  | float value => cases h

mutual

theorem toValue_document {room : Nat} {v : Value} (hfree : v.FloatFree) (hordered : v.Ordered)
    (hroom : v.nesting ≤ room) : v.document.toValue room = some v := by
  match v, room with
  | null, _ | bool _, _ | string _, _ => rfl
  | number n, _ =>
    rw [document, toValue, numberOf_numeral hfree]
    rfl
  | array _, 0 | object _, 0 => cases hroom
  | array items, room + 1 =>
    rw [document, toValue, itemValues_documents hfree hordered (Nat.le_of_succ_le_succ hroom)]
    rfl
  | object members, room + 1 =>
    rw [document, toValue,
      memberValues_documents hfree hordered.2 (Nat.le_of_succ_le_succ hroom), Option.map_some,
      Table.toList_ofEntries hordered.1]

theorem itemValues_documents {room : Nat} {items : List Value} (hfree : ItemsFloatFree items)
    (hordered : ItemsOrdered items) (hroom : itemsNesting items ≤ room) :
    itemValues room (documents items) = some items := by
  match items with
  | [] => rfl
  | item :: rest =>
    have hmax := Nat.max_le.mp hroom
    rw [documents, itemValues, toValue_document hfree.1 hordered.1 hmax.1,
      itemValues_documents hfree.2 hordered.2 hmax.2]
    rfl

theorem memberValues_documents {room : Nat} {members : List (String × Value)}
    (hfree : MembersFloatFree members) (hordered : MembersOrdered members)
    (hroom : membersNesting members ≤ room) :
    memberValues room (memberDocuments members) = some members := by
  match members with
  | [] => rfl
  | (name, item) :: rest =>
    have hmax := Nat.max_le.mp hroom
    rw [memberDocuments, memberValues, toValue_document hfree.1 hordered.1 hmax.1,
      memberValues_documents hfree.2 hordered.2 hmax.2]
    rfl

end

mutual

theorem toValue_document_of_deep {room : Nat} {v : Value} (hdeep : room < v.nesting) :
    v.document.toValue room = none := by
  match v, room with
  | null, _ | bool _, _ | number _, _ | string _, _ => cases hdeep
  | array _, 0 | object _, 0 => rfl
  | array items, room + 1 =>
    rw [document, toValue, itemValues_documents_of_deep (Nat.lt_of_succ_lt_succ hdeep)]
    rfl
  | object members, room + 1 =>
    rw [document, toValue, memberValues_documents_of_deep (Nat.lt_of_succ_lt_succ hdeep)]
    rfl

theorem itemValues_documents_of_deep {room : Nat} {items : List Value}
    (hdeep : room < itemsNesting items) : itemValues room (documents items) = none := by
  match items with
  | [] => cases hdeep
  | item :: rest =>
    rw [documents, itemValues]
    rcases Nat.lt_or_ge room item.nesting with hitem | hitem
    · rw [toValue_document_of_deep hitem]
      rfl
    · have hrest : room < itemsNesting rest := by
        rw [itemsNesting] at hdeep
        omega
      rw [itemValues_documents_of_deep hrest]
      cases item.document.toValue room <;> rfl

theorem memberValues_documents_of_deep {room : Nat} {members : List (String × Value)}
    (hdeep : room < membersNesting members) :
    memberValues room (memberDocuments members) = none := by
  match members with
  | [] => cases hdeep
  | (name, item) :: rest =>
    rw [memberDocuments, memberValues]
    rcases Nat.lt_or_ge room item.nesting with hitem | hitem
    · rw [toValue_document_of_deep hitem]
      rfl
    · have hrest : room < membersNesting rest := by
        rw [membersNesting] at hdeep
        omega
      rw [memberValues_documents_of_deep hrest]
      cases item.document.toValue room <;> rfl

end

theorem membersNesting_le {members : List (String × Value)} {room : Nat} :
    membersNesting members ≤ room ↔ ∀ m ∈ members, m.2.nesting ≤ room := by
  induction members with
  | nil => simp [membersNesting]
  | cons m rest ih => rw [membersNesting, Nat.max_le, ih, List.forall_mem_cons]

mutual

theorem nesting_toValue {room : Nat} {j : Json} {v : Value} (h : j.toValue room = some v) :
    v.nesting ≤ room := by
  match j, room with
  | .null, _ | .bool _, _ =>
    simp only [toValue, Option.some.injEq] at h
    subst h
    exact Nat.zero_le _
  | .number _, _ | .string _, _ =>
    obtain ⟨x, _, rfl⟩ := Option.map_eq_some_iff.mp h
    exact Nat.zero_le _
  | .array _, 0 | .object _, 0 => simp [toValue] at h
  | .array items, room + 1 =>
    obtain ⟨found, hf, rfl⟩ := Option.map_eq_some_iff.mp h
    exact Nat.succ_le_succ (nesting_itemValues hf)
  | .object members, room + 1 =>
    obtain ⟨found, hf, rfl⟩ := Option.map_eq_some_iff.mp h
    refine Nat.succ_le_succ (membersNesting_le.mpr fun m hm => ?_)
    exact membersNesting_le.mp (nesting_memberValues hf) m (Table.mem_of_mem_ofEntries hm)

theorem nesting_itemValues {room : Nat} {items : List Json} {found : List Value}
    (h : itemValues room items = some found) : itemsNesting found ≤ room := by
  match items with
  | [] =>
    simp only [itemValues, Option.some.injEq] at h
    subst h
    exact Nat.zero_le _
  | item :: rest =>
    simp only [itemValues, bind, Option.bind_eq_some_iff] at h
    obtain ⟨first, hfirst, more, hmore, h⟩ := h
    cases h
    exact Nat.max_le.mpr ⟨nesting_toValue hfirst, nesting_itemValues hmore⟩

theorem nesting_memberValues {room : Nat} {members : List (Literal × Json)}
    {found : List (String × Value)} (h : memberValues room members = some found) :
    membersNesting found ≤ room := by
  match members with
  | [] =>
    simp only [memberValues, Option.some.injEq] at h
    subst h
    exact Nat.zero_le _
  | (name, item) :: rest =>
    simp only [memberValues, bind, Option.bind_eq_some_iff] at h
    obtain ⟨_, _, first, hfirst, more, hmore, h⟩ := h
    cases h
    exact Nat.max_le.mpr ⟨nesting_toValue hfirst, nesting_memberValues hmore⟩

end

end Value

theorem toData_eq {room : Nat} {j : Json} {d : Data} :
    j.toData room = some d ↔ j.toValue room = some d.value := by
  obtain ⟨value, ordered⟩ := d
  rw [toData]
  split
  · rename_i h
    simp [h]
  · rename_i found h
    simp [h]

theorem toData_document {room : Nat} {d : Data} (hfree : d.value.FloatFree)
    (hroom : d.value.nesting ≤ room) : d.value.document.toData room = some d :=
  toData_eq.mpr (Value.toValue_document hfree d.ordered hroom)

theorem toData_document_of_deep {room : Nat} {d : Data} (hdeep : room < d.value.nesting) :
    d.value.document.toData room = none := by
  rw [Option.eq_none_iff_forall_ne_some]
  intro found h
  rw [toData_eq, Value.toValue_document_of_deep hdeep] at h
  cases h

end TamperEvident.Json
