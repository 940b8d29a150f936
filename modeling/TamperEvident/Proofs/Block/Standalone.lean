import TamperEvident.Proofs.Block.Cursor
import TamperEvident.Proofs.Block.Layer

/-! A window anywhere in a buffer is read like its bytes on their own. All that its place can
change is the offset in an error, and all that the limit can change is the limit in an error. -/

namespace TamperEvident

/-- What an error says if it is met `s` bytes further in and under the limit `limit`. -/
def BlockError.moved (s limit : Nat) : BlockError → BlockError
  | varint offset cause => varint (offset + s) cause
  | tooDeep _ => tooDeep limit
  | overrun needed available => overrun needed available
  | unknownKind tag => unknownKind tag
  | trailing count => trailing count
  | shape cause => shape cause
  | signing reason => signing reason

def Layer.moved (s : Nat) : Layer → Layer
  | terminal content => terminal content
  | wrapper around inner => wrapper around ⟨inner.offset + s, inner.bytes⟩

/-- The bytes are a wrapper: its header, then `w`, and last its signature if it has one. -/
structure Wrapper.Encloses (around : Wrapper Bytes) (w raw : Bytes) : Prop where
  sized : around.Sized
  bytes : raw = around.header List.length ++ (w ++ around.ending)

namespace Window

def moved (s : Nat) (w : Window) : Window := ⟨w.offset + s, w.bytes⟩

/-- What a reader has taken, before what is left `s` bytes further in. -/
abbrev before (s : Nat) {α : Type} (taken : α × Window) : α × Window := (taken.1, taken.2.moved s)

variable (s limit : Nat) (w : Window)

theorem moved_skip (n : Nat) : (w.moved s).skip n = (w.skip n).moved s := by
  simp only [moved, skip, Nat.add_right_comm]

theorem varint_moved : (w.moved s).varint = recast (·.moved s limit) (before s) w.varint := by
  rw [varint, varint]
  cases hd : Varint.decode 64 w.bytes with
  | error cause =>
    simp only [moved, hd]
    rfl
  | ok taken =>
    obtain ⟨value, used⟩ := taken
    simp only [recast, before, ← moved_skip]
    simp only [moved, hd]

theorem field_moved (size : Nat) :
    (w.moved s).field size = recast (·.moved s limit) (before s) (w.field size) := by
  rw [field, field]
  by_cases h : (w.bytes.take size).length = size
  · simp only [recast, before, ← moved_skip, h, if_true]
    simp only [moved, h, if_true]
  · simp only [moved, h, if_false]
    rfl

theorem fieldAtEnd_moved (size : Nat) :
    (w.moved s).fieldAtEnd size = recast (·.moved s limit) (before s) (w.fieldAtEnd size) := by
  rw [fieldAtEnd, fieldAtEnd]
  by_cases h : size ≤ w.bytes.length
  · simp only [moved, h, if_true]
    rfl
  · simp only [moved, h, if_false]
    rfl

theorem sized_moved : (w.moved s).sized = recast (·.moved s limit) (before s) w.sized := by
  rw [sized, sized, varint_moved s limit]
  cases w.varint with
  | error e => rfl
  | ok taken => exact field_moved s limit taken.2 taken.1

theorem sizedAll_moved : (w.moved s).sizedAll = recast (·.moved s limit) id w.sizedAll := by
  induction hn : w.bytes.length using Nat.strongRecOn generalizing w with
  | ind n ih =>
    subst hn
    rw [sizedAll_eq, sizedAll_eq]
    by_cases hempty : w.bytes.isEmpty = true
    · simp only [moved, hempty, if_true]
      rfl
    · rw [if_neg hempty, if_neg (by exact hempty), sized_moved s limit]
      cases hsized : w.sized with
      | error e => rfl
      | ok taken =>
        have hrest := ih _ (sized_shorter hsized) taken.2 rfl
        change (taken.2.moved s).sizedAll.map (taken.1 :: ·) = _
        rw [hrest]
        change _ = recast _ id (taken.2.sizedAll.map (taken.1 :: ·))
        cases taken.2.sizedAll <;> rfl

theorem layerOf_moved (kind : Kind) :
    (w.moved s).layerOf kind = recast (·.moved s limit) (Layer.moved s) (w.layerOf kind) := by
  cases kind with
  | policy =>
    rw [layerOf, varint_moved s limit]
    refine recast_bind (fun version => ?_) _
    rfl
  | data => rfl
  | reference =>
    rw [layerOf, sizedAll_moved s limit]
    refine recast_bind (fun hashes => ?_) _
    rfl
  | addAuthors =>
    rw [layerOf, sizedAll_moved s limit]
    refine recast_bind (fun keys => ?_) _
    rfl
  | ack =>
    rw [layerOf, varint_moved s limit]
    refine recast_bind (fun index => ?_) _
    dsimp only
    rw [sized_moved s limit]
    refine recast_bind (fun link => ?_) _
    by_cases hrest : link.2.bytes.length = 0
    · simp only [moved, hrest, if_true]
      rfl
    · simp only [moved, hrest, if_false]
      rfl
  | authorSignature =>
    rw [layerOf, sized_moved s limit]
    refine recast_bind (fun author => ?_) _
    dsimp only
    rw [varint_moved s limit]
    refine recast_bind (fun size => ?_) _
    dsimp only
    rw [fieldAtEnd_moved s limit]
    refine recast_bind (fun signature => ?_) _
    rfl
  | previousBlock =>
    rw [layerOf, sized_moved s limit]
    refine recast_bind (fun hash => ?_) _
    rfl
  | inContext =>
    rw [layerOf, sized_moved s limit]
    refine recast_bind (fun link => ?_) _
    rfl
  | updateContext => rfl

theorem layer_moved : (w.moved s).layer = recast (·.moved s limit) (Layer.moved s) w.layer := by
  rw [layer, varint_moved s limit]
  refine recast_bind (fun tag => ?_) _
  dsimp only
  cases Kind.ofTag? tag.1 with
  | none => rfl
  | some kind => exact layerOf_moved s limit tag.2 kind

theorem layer_eq_wrapper {raw : Bytes} {around : Wrapper Bytes} {inner : Window} :
    (⟨0, raw⟩ : Window).layer = .ok (.wrapper around inner) ↔
      around.Encloses inner.bytes raw ∧ inner.offset = (around.header List.length).length := by
  rw [layer_eq_ok, Wrapper.header_eq, List.length_append]
  constructor
  · rintro ⟨rest, ⟨htag, hrest⟩, hsized, hbytes, hoffset⟩
    refine ⟨⟨hsized, ?_⟩, ?_⟩
    · rw [Wrapper.header_eq, List.append_assoc, ← hbytes]
      exact htag
    · rw [hoffset, hrest, Nat.zero_add]
      rfl
  · rintro ⟨⟨hsized, hbytes⟩, hoffset⟩
    rw [Wrapper.header_eq, List.append_assoc] at hbytes
    obtain ⟨rest, hcut, hrest⟩ := exists_cut (w := ⟨0, raw⟩) hbytes
    refine ⟨rest, hcut, hsized, hrest, ?_⟩
    rw [hoffset, hcut.2, Nat.zero_add]

end Window

namespace Block

theorem parseWindow_moved (s limit limit' room : Nat) (w : Window) :
    parseWindow limit room (w.moved s) =
      recast (·.moved s limit) id (parseWindow limit' room w) := by
  induction room generalizing w with
  | zero => rfl
  | succ room ih =>
    rw [parseWindow_succ, parseWindow_succ, Window.layer_moved s limit]
    refine recast_bind (fun l => ?_) _
    cases l with
    | terminal content => rfl
    | wrapper around inner =>
      change (parseWindow limit room (inner.moved s)).map _ = _
      rw [ih, Layer.toBlock]
      cases parseWindow limit' room inner <;> rfl

theorem parse_of_encloses {around : Wrapper Bytes} {w raw : Bytes} (h : around.Encloses w raw)
    (d : Nat) :
    parse (d + 1) raw =
      recast (·.moved (around.header List.length).length (d + 1)) (wrapped raw around)
        (parse d w) := by
  have hlayer : (⟨0, raw⟩ : Window).layer =
      .ok (.wrapper around (Window.moved (around.header List.length).length ⟨0, w⟩)) :=
    Window.layer_eq_wrapper.mpr ⟨h, Nat.zero_add _⟩
  rw [parse, parseWindow_of_wrapper hlayer, parseWindow_moved _ _ d, parse]
  cases parseWindow d d ⟨0, w⟩ <;> rfl

/-- Each layer of a block is, on its own, the block that it is inside the others. -/
theorem parse_layer {d : Nat} {raw : Bytes} {b layer : Block} (h : parse d raw = .ok b) {k : Nat}
    (hk : b.layers[k]? = some layer) : parse (d - k) layer.raw = .ok layer := by
  induction k generalizing d raw b with
  | zero =>
    obtain rfl : b = layer := by
      cases b <;> exact Option.some.inj hk
    rwa [raw_parse h]
  | succ k ih =>
    cases d with
    | zero => cases h
    | succ d =>
      rcases parseWindow_cases h with
        ⟨content, _, rfl⟩ | ⟨around, inner, block, hlayer, _, rfl⟩
      · cases hk
      · have hinner : parse d inner.bytes = .ok block := by
          have hencloses := (Window.layer_eq_wrapper.mp hlayer).1
          rw [parse_of_encloses hencloses, recast_eq_ok] at h
          obtain ⟨found, hfound, heq⟩ := h
          rw [hfound, (wrapped.inj heq).2.2]
        rw [Nat.add_sub_add_right]
        exact ih hinner hk

end Block

/-- A window is read as a block is read on its own, wherever it is in a buffer and whatever follows
it there: the outcome is the same but for the offset and the limit that an error may name. A wrapper
is read exactly off the bytes that enclose what it leaves, and so what it leaves for the block
inside parses on its own, as does each layer of a block. -/
theorem window_parses_alone :
    (∀ (buffer : Bytes) (c : Cursor buffer) (limit room : Nat),
      c.read limit room = recast (·.moved c.start limit) id (Block.parse room c.left)) ∧
    (∀ (d : Nat) (raw : Bytes), (Cursor.whole raw).read d d = Block.parse d raw) ∧
    (∀ (raw : Bytes) (around : Wrapper Bytes) (inner : Window),
      (⟨0, raw⟩ : Window).layer = .ok (.wrapper around inner) ↔
        around.Encloses inner.bytes raw ∧ inner.offset = (around.header List.length).length) ∧
    (∀ (around : Wrapper Bytes) (w raw : Bytes) (d : Nat), around.Encloses w raw → 1 ≤ d →
      (∀ b, Block.parse d raw = .ok b ↔
        ∃ inner, Block.parse (d - 1) w = .ok inner ∧ b = .wrapped raw around inner) ∧
      ∀ e, Block.parse (d - 1) w = .error e →
        Block.parse d raw = .error (e.moved (around.header List.length).length d)) ∧
    ∀ (d k : Nat) (raw : Bytes) (b layer : Block), Block.parse d raw = .ok b →
      b.layers[k]? = some layer → Block.parse (d - k) layer.raw = .ok layer := by
  refine ⟨?_, Cursor.read_whole, fun raw around inner => Window.layer_eq_wrapper, ?_, ?_⟩
  · intro buffer c limit room
    have hmoved := Block.parseWindow_moved c.start limit room room ⟨0, c.left⟩
    rw [Window.moved, Nat.zero_add] at hmoved
    rw [Cursor.read_window, Block.parse, ← hmoved, Cursor.window]
  · intro around w raw d h hd
    obtain ⟨d, rfl⟩ := Nat.exists_eq_add_of_le' hd
    rw [Nat.add_sub_cancel, Block.parse_of_encloses h]
    refine ⟨fun b => ?_, fun e he => ?_⟩
    · rw [recast_eq_ok]
      simp only [eq_comm]
    · rw [he, recast]
  · intro d k raw b layer h hk
    exact Block.parse_layer h hk

/-- A signature around a block that breaks off, and around one that does not. -/
theorem window_parses_alone_signed :
    (Wrapper.authorSignature [7] [9]).Encloses [80, 1, 104, 85, 128]
      [83, 1, 7, 1, 80, 1, 104, 85, 128, 9] ∧
    Block.parse 4 [83, 1, 7, 1, 80, 1, 104, 85, 128, 9] = .error (.varint 8 .truncated) ∧
    (Wrapper.authorSignature [7] [9]).Encloses [85, 68, 120] [83, 1, 7, 1, 85, 68, 120, 9] ∧
    ∃ b, Block.parse 3 [83, 1, 7, 1, 85, 68, 120, 9] = .ok b ∧
      b.layers[2]? = some (.terminal [68, 120] (.data [120])) ∧
      Block.parse (3 - 2) [68, 120] = .ok (.terminal [68, 120] (.data [120])) := by
  obtain ⟨_, _, _, hwrapped, hlayers⟩ := window_parses_alone
  have hbroken : (Wrapper.authorSignature [7] [9]).Encloses [80, 1, 104, 85, 128]
      [83, 1, 7, 1, 80, 1, 104, 85, 128, 9] := ⟨⟨by decide, by decide⟩, by cbv⟩
  have hwhole : (Wrapper.authorSignature [7] [9]).Encloses [85, 68, 120]
      [83, 1, 7, 1, 85, 68, 120, 9] := ⟨⟨by decide, by decide⟩, by cbv⟩
  have herror : Block.parse (4 - 1) [80, 1, 104, 85, 128] = .error (.varint 4 .truncated) := by cbv
  have hinner : Block.parse (3 - 1) [85, 68, 120] =
      .ok (.wrapped [85, 68, 120] .updateContext (.terminal [68, 120] (.data [120]))) := by cbv
  have hlength : ((Wrapper.authorSignature [7] [9] : Wrapper Bytes).header List.length).length = 4 := by
    cbv
  have hparse := ((hwrapped _ _ _ 3 hwhole (by decide)).1 _).mpr ⟨_, hinner, rfl⟩
  have hfailed := (hwrapped _ _ _ 4 hbroken (by decide)).2 _ herror
  rw [hlength] at hfailed
  exact ⟨hbroken, hfailed, hwhole, _, hparse, rfl, hlayers 3 2 _ _ _ hparse rfl⟩

end TamperEvident
