import TamperEvident.Json.Value
import TamperEvident.Table

/-! Documents read for the data in them. Of members with one name the last counts,
and the members of every object stand in the order of their names, so that the
way a document is written leaves no trace. -/

namespace TamperEvident.Json

namespace Value

mutual

/-- Whether the names in every object increase. -/
def Ordered : Value → Prop
  | null | bool _ | number _ | string _ => True
  | array items => ItemsOrdered items
  | object members => (members.Pairwise fun a b => compare a.1 b.1 = .lt) ∧ MembersOrdered members

def ItemsOrdered : List Value → Prop
  | [] => True
  | item :: rest => item.Ordered ∧ ItemsOrdered rest

def MembersOrdered : List (String × Value) → Prop
  | [] => True
  | (_, item) :: rest => item.Ordered ∧ MembersOrdered rest

end

theorem membersOrdered_iff {members : List (String × Value)} :
    MembersOrdered members ↔ ∀ m ∈ members, m.2.Ordered := by
  induction members with
  | nil => simp [MembersOrdered]
  | cons m rest ih => simp [MembersOrdered, ih]

end Value

structure Data where
  value : Value
  ordered : value.Ordered

def Data.member (name : String) (value : Value) (h : value.Ordered) : Data :=
  ⟨.object [(name, value)], List.pairwise_singleton _ _, h, trivial⟩

/-- Containers that may be open at once in what is read. -/
def nestingLimit : Nat := 127

mutual

/-- The value of a document in which at most `room` containers are nested. -/
def toValue (room : Nat) : Json → Option Value
  | .null => some .null
  | .bool value => some (.bool value)
  | .number numeral => (numberOf numeral).map .number
  | .string literal => literal.map .string
  | .array items =>
    match room with
    | 0 => none
    | room + 1 => (itemValues room items).map .array
  | .object members =>
    match room with
    | 0 => none
    | room + 1 => (memberValues room members).map fun found =>
      .object (Table.ofEntries found).toList

def itemValues (room : Nat) : List Json → Option (List Value)
  | [] => some []
  | item :: rest => do
    let first ← item.toValue room
    let more ← itemValues room rest
    return first :: more

def memberValues (room : Nat) : List (Literal × Json) → Option (List (String × Value))
  | [] => some []
  | (name, item) :: rest => do
    let name ← name
    let first ← item.toValue room
    let more ← memberValues room rest
    return (name, first) :: more

end

mutual

theorem toValue_ordered {room : Nat} {j : Json} {v : Value} (h : j.toValue room = some v) :
    v.Ordered := by
  match j, room with
  | .null, _ | .bool _, _ =>
    simp only [toValue, Option.some.injEq] at h
    subst h
    trivial
  | .number _, _ | .string _, _ =>
    obtain ⟨x, _, rfl⟩ := Option.map_eq_some_iff.mp h
    trivial
  | .array _, 0 | .object _, 0 => simp [toValue] at h
  | .array items, room + 1 =>
    obtain ⟨found, hf, rfl⟩ := Option.map_eq_some_iff.mp h
    exact itemValues_ordered hf
  | .object members, room + 1 =>
    obtain ⟨found, hf, rfl⟩ := Option.map_eq_some_iff.mp h
    refine ⟨Std.ExtTreeMap.ordered_keys_toList, Value.membersOrdered_iff.mpr fun m hm => ?_⟩
    exact Value.membersOrdered_iff.mp (memberValues_ordered hf) m (Table.mem_of_mem_ofEntries hm)

theorem itemValues_ordered {room : Nat} {items : List Json} {found : List Value}
    (h : itemValues room items = some found) : Value.ItemsOrdered found := by
  match items with
  | [] =>
    simp only [itemValues, Option.some.injEq] at h
    subst h
    trivial
  | item :: rest =>
    simp only [itemValues, bind, Option.bind_eq_some_iff] at h
    obtain ⟨first, hfirst, more, hmore, h⟩ := h
    cases h
    exact ⟨toValue_ordered hfirst, itemValues_ordered hmore⟩

theorem memberValues_ordered {room : Nat} {members : List (Literal × Json)}
    {found : List (String × Value)} (h : memberValues room members = some found) :
    Value.MembersOrdered found := by
  match members with
  | [] =>
    simp only [memberValues, Option.some.injEq] at h
    subst h
    trivial
  | (name, item) :: rest =>
    simp only [memberValues, bind, Option.bind_eq_some_iff] at h
    obtain ⟨_, _, first, hfirst, more, hmore, h⟩ := h
    cases h
    exact ⟨toValue_ordered hfirst, memberValues_ordered hmore⟩

end

def toData (room : Nat) (j : Json) : Option Data :=
  match h : j.toValue room with
  | none => none
  | some value => some ⟨value, toValue_ordered h⟩

end TamperEvident.Json
