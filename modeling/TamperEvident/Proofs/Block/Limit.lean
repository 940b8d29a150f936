import TamperEvident.Proofs.Block.Depth
import TamperEvident.Proofs.Block.Standalone

/-! Two readings of the same bytes under two limits. Whether there is room for a layer is asked
before anything else about it, so a smaller limit can only cut the reading short. -/

namespace TamperEvident

namespace Block

theorem eq_limit_of_tooDeep {limit room x : Nat} {w : Window}
    (h : parseWindow limit room w = .error (.tooDeep x)) : x = limit := by
  have hmoved := parseWindow_moved 0 limit limit room w
  change parseWindow limit room w = _ at hmoved
  rw [h, recast, BlockError.moved] at hmoved
  injection hmoved with hmoved
  injection hmoved

/-- With more room the reading goes on from where it was cut short, or ends as it did. -/
theorem error_of_room_le {limit room limit' room' : Nat} {w : Window} {e : BlockError}
    (hle : room ≤ room') (h : parseWindow limit room w = .error e) :
    e = .tooDeep limit ∨ parseWindow limit' room' w = .error e := by
  induction room generalizing room' w with
  | zero => exact .inl (Except.error.inj h).symm
  | succ room ih =>
    obtain ⟨room', rfl⟩ := Nat.exists_eq_add_of_le' (Nat.le_trans (Nat.le_add_left 1 room) hle)
    rw [parseWindow] at h ⊢
    cases hlayer : w.layer with
    | error cause =>
      rw [hlayer] at h
      exact .inr h
    | ok layer =>
      rw [hlayer] at h
      cases layer with
      | terminal content => cases h
      | wrapper around inner =>
        -- The layer itself is the same in both readings, so the error is the one of the inside.
        dsimp only at h ⊢
        cases hinner : parseWindow limit room inner with
        | ok block =>
          rw [hinner] at h
          cases h
        | error cause =>
          rw [hinner] at h
          obtain rfl := Except.error.inj h
          refine (ih (Nat.le_of_succ_le_succ hle) hinner).imp_right fun hagain => ?_
          rw [hagain]
          rfl

theorem error_of_le {limit limit' : Nat} {raw : Bytes} {e : BlockError} (hle : limit ≤ limit')
    (h : parse limit raw = .error e) : e = .tooDeep limit ∨ parse limit' raw = .error e :=
  error_of_room_le hle h

theorem tooDeep_of_le {limit limit' : Nat} {raw : Bytes} (hle : limit ≤ limit')
    (h : parse limit' raw = .error (.tooDeep limit')) :
    parse limit raw = .error (.tooDeep limit) := by
  cases hparse : parse limit raw with
  | ok b =>
    rw [parse_of_le hle hparse] at h
    cases h
  | error e =>
    rcases error_of_le hle hparse with rfl | hagain
    · rfl
    · rw [h] at hagain
      obtain rfl := Except.error.inj hagain
      rw [eq_limit_of_tooDeep hparse]

end Block

/-- The limit decides how many layers are read and nothing else: under a larger one the same blocks
are read, with any that have more layers, and the same bytes fail for the same reason, unless the
reason was the limit itself. -/
theorem limit_only_limits_depth (d d' : Nat) (raw : Bytes) (hle : d ≤ d') :
    (∀ b, Block.parse d raw = .ok b ↔ Block.parse d' raw = .ok b ∧ b.depth ≤ d) ∧
    (∀ e, Block.parse d raw = .error e → (∀ x, e ≠ .tooDeep x) → Block.parse d' raw = .error e) ∧
    (Block.parse d' raw = .error (.tooDeep d') → Block.parse d raw = .error (.tooDeep d)) ∧
    (∀ x, Block.parse d raw = .error (.tooDeep x) → x = d) ∧
    ∀ b, Block.parse d raw = .ok b → 1 ≤ b.depth ∧ b.depth ≤ d := by
  refine ⟨fun b => ⟨fun h => ?_, fun h => ?_⟩, fun e h he => ?_, Block.tooDeep_of_le hle,
    fun x h => Block.eq_limit_of_tooDeep h, fun b h => ?_⟩
  · exact ⟨Block.parse_of_le hle h, Block.depth_le_of_parse h⟩
  · exact Block.parse_of_depth_le h.1 h.2
  · exact (Block.error_of_le hle h).resolve_left (he d)
  · exact ⟨b.depth_pos, Block.depth_le_of_parse h⟩

/-- Three layers under two limits, and as many with one of an unknown kind inside. -/
theorem limit_only_limits_depth_three :
    2 ≤ 3 ∧
    Block.parse 2 [85, 85, 68, 120] = .error (.tooDeep 2) ∧
    (∃ b, Block.parse 3 [85, 85, 68, 120] = .ok b ∧ 1 ≤ b.depth ∧ ¬ b.depth ≤ 2) ∧
    Block.parse 2 [85, 0, 120] = .error (.unknownKind 0) ∧
    Block.parse 3 [85, 0, 120] = .error (.unknownKind 0) ∧
    Block.parse 2 [85, 85, 0, 120] = .error (.tooDeep 2) := by
  have hshort : Block.parse 2 [85, 85, 68, 120] = .error (.tooDeep 2) := by cbv
  have hunknown : Block.parse 2 [85, 0, 120] = .error (.unknownKind 0) := by cbv
  have hlong : ∃ b, Block.parse 3 [85, 85, 68, 120] = .ok b := ⟨_, by cbv⟩
  obtain ⟨b, hb⟩ := hlong
  obtain ⟨hread, _⟩ := limit_only_limits_depth 2 3 [85, 85, 68, 120] (by decide)
  obtain ⟨_, hfailed, _⟩ := limit_only_limits_depth 2 3 [85, 0, 120] (by decide)
  have hdeep : ¬ b.depth ≤ 2 := fun h => by
    have hagain := (hread b).mpr ⟨hb, h⟩
    rw [hshort] at hagain
    cases hagain
  have hagain := hfailed _ hunknown fun x h => by cases h
  exact ⟨by decide, hshort, ⟨b, hb, b.depth_pos, hdeep⟩, hunknown, hagain, by cbv⟩

end TamperEvident
