import TamperEvident.Block.Cursor
import TamperEvident.Proofs.Block.Fields

/-! A block that is read in place, between two ends in a buffer, is the block that fills the
window there. No field is read past the back end, so what follows it makes no difference. -/

namespace TamperEvident

/-- The block that has this layer off its bytes `raw`; `inner` reads the block inside. -/
def Layer.toBlock (raw : Bytes) (inner : Window → Except BlockError Block) :
    Layer → Except BlockError Block
  | terminal content => .ok (.terminal raw content)
  | wrapper around w => (inner w).map (.wrapped raw around)

theorem Block.parseWindow_succ (limit room : Nat) (w : Window) :
    parseWindow limit (room + 1) w =
      w.layer >>= Layer.toBlock w.bytes (parseWindow limit room) := by
  rw [parseWindow]
  cases w.layer with
  | error e => rfl
  | ok l => cases l <;> rfl

namespace Cursor

variable {buffer : Bytes} {c : Cursor buffer}

def window (c : Cursor buffer) : Window := ⟨c.start, c.left⟩

abbrev leaving {α : Type} (taken : α × Cursor buffer) : α × Window := (taken.1, taken.2.window)

theorem window_advance {n : Nat} (h : n ≤ c.remaining) :
    (c.advance n h).window = c.window.skip n := by
  have hbytes : (c.advance n h).left = c.left.drop n := by
    simp only [left, List.extract, advance, List.drop_take, List.drop_drop, Nat.sub_add_eq]
  rw [window, hbytes]
  rfl

theorem extract_front {n : Nat} (h : n ≤ c.remaining) :
    buffer.extract c.start (c.start + n) = c.left.take n := by
  unfold remaining at h
  rw [left, List.extract, List.extract, List.take_take, Nat.add_sub_cancel_left, Nat.min_eq_left h]

theorem left_retreat {n : Nat} (h : n ≤ c.remaining) :
    (c.retreat n h).left = c.left.take (c.left.length - n) := by
  rw [length_left]
  simp only [left, List.extract, retreat, remaining, List.take_take]
  congr 1
  omega

theorem extract_back {n : Nat} (h : n ≤ c.remaining) :
    buffer.extract (c.stop - n) c.stop = c.left.drop (c.left.length - n) := by
  have hstart := c.start_le
  rw [length_left]
  unfold remaining at h ⊢
  rw [left, List.extract, List.extract, List.drop_take, List.drop_drop]
  congr 1
  · omega
  · congr 1
    omega

theorem varint_window : c.window.varint = c.varint.map leaving := by
  rw [Window.varint, varint]
  simp only [window]
  split
  · rename_i cause hd
    split
    · rename_i cause' hd'
      obtain rfl := Except.error.inj (hd.symm.trans hd')
      rfl
    · rename_i value used hd'
      cases hd.symm.trans hd'
  · rename_i value used hd
    split
    · rename_i cause' hd'
      cases hd.symm.trans hd'
    · rename_i value' used' hd'
      obtain ⟨rfl, rfl⟩ := Prod.mk.inj (Except.ok.inj (hd.symm.trans hd'))
      simp only [Except.map, leaving, window_advance]
      rfl

theorem field_window (size : Nat) : c.window.field size = (c.field size).map leaving := by
  rw [Window.field, field]
  by_cases h : size ≤ c.remaining
  · have hlength : (c.window.bytes.take size).length = size := by
      rw [List.length_take, window, length_left]
      exact Nat.min_eq_left h
    simp only [hlength, if_true, dif_pos h, Except.map, leaving, window_advance, extract_front h]
    rfl
  · have hlength : (c.window.bytes.take size).length = c.remaining := by
      rw [List.length_take, window, length_left]
      exact Nat.min_eq_right (Nat.le_of_not_le h)
    have hne : c.remaining ≠ size := by omega
    simp only [hlength, if_neg hne, dif_neg h]
    rfl

theorem fieldAtEnd_window (size : Nat) :
    c.window.fieldAtEnd size = (c.fieldAtEnd size).map leaving := by
  rw [Window.fieldAtEnd, fieldAtEnd]
  have hlength : c.window.bytes.length = c.remaining := c.length_left
  by_cases h : size ≤ c.remaining
  · rw [if_pos (hlength.symm ▸ h), dif_pos h]
    simp only [Except.map, leaving, extract_back h]
    rw [window, window, left_retreat h]
    rfl
  · rw [if_neg (hlength.symm ▸ h), dif_neg h, hlength]
    rfl

theorem sized_window : c.window.sized = c.sized.map leaving := by
  rw [Window.sized, sized, varint_window]
  cases c.varint with
  | error e => rfl
  | ok taken => exact field_window taken.1

theorem sizedAll_eq (c : Cursor buffer) :
    c.sizedAll =
      if c.start < c.stop then c.sized >>= fun (b, rest) => rest.sizedAll.map (b :: ·)
      else .ok [] := by
  rw [sizedAll]
  split
  · split
    · rename_i e he
      rw [he]
      rfl
    · rename_i b rest hb
      simp only [hb]
      rfl
  · rfl

theorem sizedAll_window (c : Cursor buffer) : c.window.sizedAll = c.sizedAll := by
  induction hn : c.remaining using Nat.strongRecOn generalizing c with
  | ind n ih =>
    subst hn
    have hempty : c.window.bytes.isEmpty = true ↔ ¬ c.start < c.stop := by
      rw [List.isEmpty_iff_length_eq_zero, window, length_left, remaining]
      omega
    rw [Window.sizedAll_eq, sizedAll_eq]
    by_cases hlt : c.start < c.stop
    · rw [if_neg (fun h => hempty.mp h hlt), if_pos hlt, sized_window, map_bind]
      cases hsized : c.sized with
      | error e => rfl
      | ok taken =>
        have hrest := ih _ (sized_shorter hsized) taken.2 rfl
        exact congrArg (Except.map (taken.1 :: ·)) hrest
    · rw [if_pos (hempty.mpr hlt), if_neg hlt]

theorem readAs_eq {raw : Bytes} {inner : Cursor buffer → Except BlockError Block}
    {next : Window → Except BlockError Block} (hinner : ∀ c, inner c = next c.window)
    (c : Cursor buffer) (kind : Kind) :
    c.readAs raw inner kind = c.window.layerOf kind >>= Layer.toBlock raw next := by
  have hwrapped : ∀ around (rest : Cursor buffer),
      (do let block ← inner rest; return .wrapped raw around block) =
        Layer.toBlock raw next (.wrapper around rest.window) := by
    intro around rest
    rw [hinner, Layer.toBlock]
    cases next rest.window <;> rfl
  cases kind with
  | policy =>
    simp only [readAs, Window.layerOf, varint_window, map_bind, bind_assoc, pure_bind]
    rfl
  | data => rfl
  | reference =>
    simp only [readAs, Window.layerOf, sizedAll_window, bind_assoc, pure_bind]
    rfl
  | addAuthors =>
    simp only [readAs, Window.layerOf, sizedAll_window, bind_assoc, pure_bind]
    rfl
  | ack =>
    simp only [readAs, Window.layerOf, varint_window, sized_window, map_bind, bind_assoc]
    congr 1
    funext index
    congr 1
    funext link
    have hlength : link.2.window.bytes.length = link.2.remaining := link.2.length_left
    by_cases hrest : link.2.remaining = 0
    · rw [if_pos hrest, if_pos (hlength.trans hrest)]
      rfl
    · rw [if_neg hrest, if_neg (fun h => hrest (hlength.symm.trans h)), hlength]
      rfl
  | authorSignature =>
    simp only [readAs, Window.layerOf, sized_window, varint_window, fieldAtEnd_window, map_bind,
      bind_assoc, pure_bind, ← hwrapped]
  | previousBlock =>
    simp only [readAs, Window.layerOf, sized_window, map_bind, bind_assoc, pure_bind, ← hwrapped]
  | inContext =>
    simp only [readAs, Window.layerOf, sized_window, map_bind, bind_assoc, pure_bind, ← hwrapped]
  | updateContext => exact hwrapped .updateContext c

theorem read_window (limit room : Nat) (c : Cursor buffer) :
    c.read limit room = Block.parseWindow limit room c.window := by
  induction room generalizing c with
  | zero => rfl
  | succ room ih =>
    rw [Block.parseWindow_succ, Window.layer, varint_window, map_bind, read, bind_assoc]
    congr 1
    funext tag
    cases hkind : Kind.ofTag? tag.1 with
    | none => simp only [hkind]; rfl
    | some kind => simp only [hkind, readAs_eq ih]; rfl

theorem read_whole (limit : Nat) (raw : Bytes) :
    (whole raw).read limit limit = Block.parse limit raw := by
  have hwindow : (whole raw).window = ⟨0, raw⟩ := by
    simp only [window, whole, left, List.extract, Nat.sub_zero, List.drop_zero, List.take_length]
  rw [read_window, hwindow, Block.parse]

end Cursor

end TamperEvident
