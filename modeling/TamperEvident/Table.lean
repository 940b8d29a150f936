import Std.Data.ExtTreeMap
import Std.Data.ExtTreeSet

/-! Finite maps and sets in the order of their keys. Maps with the same look-ups
are equal, and so are sets with the same members. -/

namespace TamperEvident

open Std

abbrev Table (κ ν : Type) [Ord κ] := ExtTreeMap κ ν

abbrev KeySet (κ : Type) [Ord κ] := ExtTreeSet κ

namespace Table

variable {κ ν : Type} [Ord κ] [TransOrd κ]

/-- Later entries replace earlier ones of the same key. -/
def insertAll (t : Table κ ν) (l : List (κ × ν)) : Table κ ν :=
  l.foldl (fun t e => t.insert e.1 e.2) t

def ofEntries (l : List (κ × ν)) : Table κ ν := insertAll ∅ l

theorem mem_toList_insert [LawfulEqOrd κ] {t : Table κ ν} {e x : κ × ν}
    (h : x ∈ (t.insert e.1 e.2).toList) : x = e ∨ x ∈ t.toList := by
  obtain ⟨k, v⟩ := x
  rw [ExtTreeMap.mem_toList_iff_getElem?_eq_some, ExtTreeMap.getElem?_insert] at h
  split at h
  · rename_i hk
    exact .inl (Prod.ext (LawfulEqCmp.eq_of_compare hk).symm (Option.some.inj h).symm)
  · exact .inr (ExtTreeMap.mem_toList_iff_getElem?_eq_some.mpr h)

theorem mem_toList_insertAll [LawfulEqOrd κ] {l : List (κ × ν)} {t : Table κ ν} {x : κ × ν}
    (h : x ∈ (insertAll t l).toList) : x ∈ t.toList ∨ x ∈ l := by
  induction l generalizing t with
  | nil => exact .inl h
  | cons e rest ih =>
    rcases ih h with h | h
    · rcases mem_toList_insert h with rfl | h
      · exact .inr List.mem_cons_self
      · exact .inl h
    · exact .inr (List.mem_cons_of_mem _ h)

theorem mem_of_mem_ofEntries [LawfulEqOrd κ] {l : List (κ × ν)} {x : κ × ν}
    (h : x ∈ (ofEntries l).toList) : x ∈ l := by
  rcases mem_toList_insertAll h with h | h
  · rw [ExtTreeMap.toList_eq_nil_iff.mpr rfl] at h
    cases h
  · exact h

end Table

end TamperEvident
