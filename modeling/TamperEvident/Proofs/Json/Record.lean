import Mathlib.Data.List.Nodup
import TamperEvident.Json.Record
import TamperEvident.Proofs.Json.Data
import TamperEvident.Proofs.Text

/-! Parts of a record read from the document that the record was written as. -/

namespace TamperEvident.Json

/-- Members for the last fields of a record leave the fields before open. -/
theorem membersFor_append {before fields : List String} {values : List Value} (extra : Extra)
    (hnodup : (before ++ fields).Nodup) (hlen : fields.length = values.length) :
    membersFor (before ++ fields) extra (Value.memberDocuments (fields.zip values)) =
      some (List.replicate before.length none ++ values.map fun v => some v.document) := by
  induction fields generalizing before values with
  | nil =>
    cases values with
    | nil => simp [Value.memberDocuments, membersFor, List.map_const']
    | cons v values => cases hlen
  | cons name fields ih =>
    cases values with
    | nil => cases hlen
    | cons v values =>
      have hnotin : name ∉ before := by
        intro hmem
        exact (List.nodup_append.mp hnodup).2.2 name hmem name List.mem_cons_self rfl
      have hindex : (before ++ name :: fields).idxOf? name = some before.length := by
        rw [List.idxOf?, List.findIdx?_append, List.findIdx?_eq_none_iff.mpr]
        · simp [List.findIdx?_cons]
        · intro x hx
          rw [beq_eq_false_iff_ne]
          rintro rfl
          exact hnotin hx
      have hsplit : before ++ name :: fields = (before ++ [name]) ++ fields := by simp
      have hrest := @ih (before ++ [name]) values (by rwa [← hsplit]) (Nat.succ.inj hlen)
      rw [← hsplit, List.length_append, List.length_singleton, List.replicate_succ',
        List.append_assoc, List.singleton_append] at hrest
      rw [List.zip_cons_cons, Value.memberDocuments, membersFor]
      simp only [bind, Option.bind, hrest, hindex]
      simp

theorem fieldsOf_document {fields : List String} {values : List Value} (extra : Extra)
    (hnodup : fields.Nodup) (hlen : fields.length = values.length) :
    (Value.object (fields.zip values)).document.fieldsOf fields extra =
      some (values.map fun v => some v.document) :=
  @membersFor_append [] fields values extra hnodup hlen

theorem hex?_document (b : Bytes) : (Value.string (Hex.encode b)).document.hex? = some b := by
  rw [Value.document, hex?]
  simp only [string?, bind, Option.bind, Hex.decode_encode]
  rfl

theorem word?_document (n : UInt64) : (Value.ofWord n).document.word? = some n := by
  rw [Value.ofWord, Value.document, Number.numeral, word?, nat?, numberOf_natural]
  simp [n.toNat_lt]

theorem list?_document {α : Type} {read : Json → Option α} {write : α → Value}
    (h : ∀ x, read (write x).document = some x) (items : List α) :
    (Value.array (items.map write)).document.list? read = some items := by
  rw [Value.document, list?]
  induction items with
  | nil => rfl
  | cons x rest ih =>
    rw [List.map_cons, Value.documents, List.mapM_cons, h, ih]
    rfl

end TamperEvident.Json
