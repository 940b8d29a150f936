import TamperEvident.Block.Draft
import TamperEvident.Proofs.Except
import TamperEvident.Proofs.Varint

/-! The fields of a block. Each reader takes off a window just what the writer of
the field puts there, so reading is the same as having been written. -/

namespace TamperEvident

namespace Window

/-- The window `rest` is what `front` leaves of `w`. -/
def Cut (w : Window) (front : Bytes) (rest : Window) : Prop :=
  w.bytes = front ++ rest.bytes ∧ rest.offset = w.offset + front.length

theorem Cut.trans {w v u : Window} {front next : Bytes} (h : w.Cut front v) (h' : v.Cut next u) :
    w.Cut (front ++ next) u := by
  constructor
  · rw [h.1, h'.1, List.append_assoc]
  · rw [h'.2, h.2, List.length_append, Nat.add_assoc]

theorem exists_cut {w : Window} {front rest : Bytes} (h : w.bytes = front ++ rest) :
    ∃ v, w.Cut front v ∧ v.bytes = rest := ⟨⟨w.offset + front.length, rest⟩, ⟨h, rfl⟩, rfl⟩

theorem cut_iff_skip {w rest : Window} {front : Bytes} :
    w.Cut front rest ↔ front <+: w.bytes ∧ rest = w.skip front.length := by
  constructor
  · intro h
    refine ⟨⟨rest.bytes, h.1.symm⟩, ?_⟩
    rw [skip, h.1, List.drop_left, ← h.2]
  · rintro ⟨⟨tail, htail⟩, rfl⟩
    rw [Cut, skip, ← htail, List.drop_left]
    exact ⟨rfl, rfl⟩

theorem varint_eq_ok {w rest : Window} {n : Nat} :
    w.varint = .ok (n, rest) ↔ n < 2 ^ 64 ∧ w.Cut (Varint.encode n) rest := by
  rw [cut_iff_skip, varint]
  constructor
  · intro h
    split at h
    · simp at h
    · rename_i value used hd
      simp only [Except.ok.injEq, Prod.mk.injEq] at h
      obtain ⟨rfl, rfl⟩ := h
      obtain ⟨hn, rfl, hfront⟩ := (Varint.decode_eq_ok (by omega)).mp hd
      exact ⟨hn, hfront, rfl⟩
  · rintro ⟨hn, hfront, rfl⟩
    rw [(Varint.decode_eq_ok (by omega)).mpr ⟨hn, rfl, hfront⟩]

theorem field_eq_ok {w rest : Window} {size : Nat} {b : Bytes} :
    w.field size = .ok (b, rest) ↔ b.length = size ∧ w.Cut b rest := by
  rw [cut_iff_skip, field]
  constructor
  · intro h
    by_cases hsize : (w.bytes.take size).length = size
    · simp only [hsize, if_true, Except.ok.injEq, Prod.mk.injEq] at h
      obtain ⟨rfl, rfl⟩ := h
      exact ⟨hsize, List.take_prefix _ _, by rw [hsize]⟩
    · simp only [hsize, if_false, reduceCtorEq] at h
  · rintro ⟨rfl, hfront, rfl⟩
    have htake : w.bytes.take b.length = b := (List.prefix_iff_eq_take.mp hfront).symm
    simp only [htake, if_true]

theorem fieldAtEnd_eq_ok {w inner : Window} {size : Nat} {b : Bytes} :
    w.fieldAtEnd size = .ok (b, inner) ↔
      b.length = size ∧ w.bytes = inner.bytes ++ b ∧ inner.offset = w.offset := by
  rw [fieldAtEnd]
  constructor
  · intro h
    by_cases hsize : size ≤ w.bytes.length
    · simp only [hsize, if_true, Except.ok.injEq, Prod.mk.injEq] at h
      obtain ⟨rfl, rfl⟩ := h
      refine ⟨?_, (List.take_append_drop _ _).symm, rfl⟩
      rw [List.length_drop]
      omega
    · simp [hsize] at h
  · rintro ⟨rfl, hbytes, hoffset⟩
    have hlen : w.bytes.length = inner.bytes.length + b.length := by
      rw [hbytes, List.length_append]
    have hcut : w.bytes.length - b.length = inner.bytes.length := by omega
    rw [if_pos (by omega), hcut, hbytes, List.take_left, List.drop_left, ← hoffset]

theorem sized_eq_ok {w rest : Window} {b : Bytes} :
    w.sized = .ok (b, rest) ↔ b.length < 2 ^ 64 ∧ w.Cut (sizedField b) rest := by
  constructor
  · intro h
    rw [sized] at h
    split at h
    · simp at h
    · rename_i size middle hv
      obtain ⟨hsize, hlength⟩ := varint_eq_ok.mp hv
      obtain ⟨rfl, hfield⟩ := field_eq_ok.mp h
      exact ⟨hsize, hlength.trans hfield⟩
  · rintro ⟨hsize, hbytes, hoffset⟩
    rw [sizedField, List.append_assoc] at hbytes
    obtain ⟨middle, hlength, hmiddle⟩ := exists_cut hbytes
    have hfield : middle.Cut b rest := by
      refine ⟨hmiddle, ?_⟩
      rw [hoffset, hlength.2, sizedField, List.length_append, Nat.add_assoc]
    rw [sized, varint_eq_ok.mpr ⟨hsize, hlength⟩]
    exact field_eq_ok.mpr ⟨rfl, hfield⟩

theorem sizedAll_eq (w : Window) :
    w.sizedAll =
      if w.bytes.isEmpty then .ok [] else w.sized >>= fun (b, rest) => rest.sizedAll.map (b :: ·) := by
  rw [sizedAll]
  split
  · rfl
  · split
    · rename_i e he
      rw [he]
      rfl
    · rename_i b rest hb
      simp only [hb]
      rfl

theorem sizedAll_of_nil {w : Window} (h : w.bytes = []) : w.sizedAll = .ok [] := by
  rw [sizedAll, if_pos (by rw [h]; rfl)]

theorem sizedAll_of_sized {w rest : Window} {b : Bytes} (h : w.sized = .ok (b, rest)) :
    w.sizedAll = rest.sizedAll.map (b :: ·) := by
  have hshorter := sized_shorter h
  rw [sizedAll_eq, if_neg (by rw [List.isEmpty_iff_length_eq_zero]; omega), h]
  rfl

theorem sizedAll_eq_ok {w : Window} {fields : List Bytes} :
    w.sizedAll = .ok fields ↔
      (∀ b ∈ fields, b.length < 2 ^ 64) ∧ w.bytes = fields.flatMap sizedField := by
  constructor
  · intro h
    induction w using sizedAll.induct generalizing fields with
    | case1 w hempty =>
      rw [List.isEmpty_iff] at hempty
      rw [sizedAll_of_nil hempty] at h
      obtain rfl := Except.ok.inj h
      exact ⟨by simp, hempty⟩
    | case2 w hempty e he =>
      rw [sizedAll, if_neg hempty] at h
      split at h
      · simp at h
      · rename_i b rest hb
        simp [hb] at he
    | case3 w _ b rest hb _ ih =>
      rw [sizedAll_of_sized hb] at h
      obtain ⟨fields, hrest, rfl⟩ := map_eq_ok.mp h
      obtain ⟨hsizes, hbytes⟩ := ih hrest
      obtain ⟨hsize, hcut⟩ := sized_eq_ok.mp hb
      exact ⟨List.forall_mem_cons.mpr ⟨hsize, hsizes⟩, by rw [hcut.1, hbytes, List.flatMap_cons]⟩
  · rintro ⟨hsizes, hbytes⟩
    induction fields generalizing w with
    | nil => exact sizedAll_of_nil hbytes
    | cons b fields ih =>
      obtain ⟨hsize, hsizes⟩ := List.forall_mem_cons.mp hsizes
      obtain ⟨rest, hcut, hrest⟩ := exists_cut hbytes
      rw [sizedAll_of_sized (sized_eq_ok.mpr ⟨hsize, hcut⟩), ih hsizes hrest]
      rfl

end Window

end TamperEvident
