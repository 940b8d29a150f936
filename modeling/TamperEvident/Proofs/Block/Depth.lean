import TamperEvident.Proofs.Block.Layer

/-! The nesting limit decides how deep a block may be, and nothing else: bytes that
are read under two limits are read as the same block. -/

namespace TamperEvident

namespace Block

theorem depth_terminal (raw : Bytes) (content : Terminal) : (terminal raw content).depth = 1 := rfl

theorem depth_wrapped (raw : Bytes) (around : Wrapper Bytes) (inner : Block) :
    (wrapped raw around inner).depth = inner.depth + 1 := rfl

theorem depth_pos (b : Block) : 0 < b.depth := by
  cases b with
  | terminal raw content => exact Nat.one_pos
  | wrapped raw around inner => exact Nat.succ_pos _

theorem depth_le_of_parseWindow {limit room : Nat} {w : Window} {b : Block}
    (h : parseWindow limit room w = .ok b) : b.depth ≤ room := by
  induction room generalizing w b with
  | zero => simp [parseWindow] at h
  | succ room ih =>
    rcases parseWindow_cases h with
      ⟨content, _, rfl⟩ | ⟨around, inner, block, _, hblock, rfl⟩
    · rw [depth_terminal]
      omega
    · rw [depth_wrapped]
      exact Nat.succ_le_succ (ih hblock)

/-- What is read once is read wherever there is room for its layers. -/
theorem parseWindow_of_depth_le {limit room limit' room' : Nat} {w : Window} {b : Block}
    (h : parseWindow limit room w = .ok b) (hroom : b.depth ≤ room') :
    parseWindow limit' room' w = .ok b := by
  induction room generalizing w b room' with
  | zero => simp [parseWindow] at h
  | succ room ih =>
    obtain ⟨room', rfl⟩ := Nat.exists_eq_add_one.mpr (Nat.lt_of_lt_of_le b.depth_pos hroom)
    rcases parseWindow_cases h with
      ⟨content, hlayer, rfl⟩ | ⟨around, inner, block, hlayer, hblock, rfl⟩
    · exact parseWindow_of_terminal hlayer
    · rw [parseWindow_of_wrapper hlayer, ih hblock (Nat.le_of_succ_le_succ hroom)]
      rfl

theorem parse_of_depth_le {limit limit' : Nat} {raw : Bytes} {b : Block}
    (h : parse limit raw = .ok b) (hdepth : b.depth ≤ limit') : parse limit' raw = .ok b :=
  parseWindow_of_depth_le h hdepth

theorem depth_le_of_parse {limit : Nat} {raw : Bytes} {b : Block} (h : parse limit raw = .ok b) :
    b.depth ≤ limit := depth_le_of_parseWindow h

theorem parse_of_le {limit limit' : Nat} {raw : Bytes} {b : Block} (hle : limit ≤ limit')
    (h : parse limit raw = .ok b) : parse limit' raw = .ok b :=
  parse_of_depth_le h (Nat.le_trans (depth_le_of_parse h) hle)

end Block

end TamperEvident
