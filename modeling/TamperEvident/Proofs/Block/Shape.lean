import TamperEvident.Block.Shape
import TamperEvident.Proofs.Block.Layer

/-! A shape is read back from its tags, tags are read as one shape only, and reading fails where
something else stands after some tags. -/

namespace TamperEvident.Shape

theorem toBytes_cons (kind : Kind) (rest : Shape) :
    toBytes (kind :: rest) = Varint.encode kind.tag ++ toBytes rest := List.flatMap_cons

theorem ofBytes_of_ne_nil {bytes : Bytes} (h : bytes ≠ []) :
    ofBytes bytes =
      match Varint.decode 64 bytes with
      | .error cause => .error (.varint cause)
      | .ok (tag, used) =>
        match Kind.ofTag? tag with
        | none => .error (.unknownKind tag)
        | some kind => (ofBytes (bytes.drop used)).map (kind :: ·) := by
  rw [ofBytes, if_neg (by simpa using h)]
  split
  · rename_i cause hdecode
    rw [hdecode]
  · rename_i tag used hdecode
    cases hkind : Kind.ofTag? tag with
    | none => simp only [hdecode, hkind]
    | some kind => simp only [hdecode, hkind]

theorem ofBytes_cons (kind : Kind) (rest : Bytes) :
    ofBytes (Varint.encode kind.tag ++ rest) = (ofBytes rest).map (kind :: ·) := by
  have hdecode : Varint.decode 64 (Varint.encode kind.tag ++ rest) =
      .ok (kind.tag, (Varint.encode kind.tag).length) :=
    (Varint.decode_eq_ok (by decide)).mpr ⟨kind.tag_lt, rfl, List.prefix_append _ _⟩
  have hpos := (Varint.decode_used hdecode).1
  rw [ofBytes_of_ne_nil (List.append_ne_nil_of_left_ne_nil (List.ne_nil_of_length_pos hpos) _),
    hdecode]
  simp only [Kind.ofTag?_tag, List.drop_left]

theorem ofBytes_toBytes (shape : Shape) : ofBytes shape.toBytes = .ok shape := by
  induction shape with
  | nil => rw [ofBytes, toBytes, List.flatMap_nil, List.isEmpty_nil, if_pos rfl]
  | cons kind rest ih =>
    rw [toBytes_cons, ofBytes_cons, ih]
    rfl

theorem toBytes_inj {shape other : Shape} : shape.toBytes = other.toBytes ↔ shape = other := by
  refine ⟨fun h => ?_, congrArg toBytes⟩
  have hread := ofBytes_toBytes shape
  rw [h, ofBytes_toBytes] at hread
  exact (Except.ok.inj hread).symm

theorem toBytes_of_ofBytes {bytes : Bytes} {shape : Shape} (h : ofBytes bytes = .ok shape) :
    shape.toBytes = bytes := by
  fun_induction ofBytes bytes generalizing shape with
  | case1 bytes hempty =>
    obtain rfl := Except.ok.inj h
    exact (List.isEmpty_iff.mp hempty).symm
  | case2 => cases h
  | case3 => cases h
  | case4 bytes hempty tag used hdecode kind hkind hused ih =>
    obtain ⟨rest, hrest, rfl⟩ := map_eq_ok.mp h
    obtain ⟨_, rfl, hprefix⟩ := (Varint.decode_eq_ok (by decide)).mp hdecode
    rw [toBytes_cons, ih hrest, Kind.tag_of_ofTag? hkind]
    exact List.prefix_iff_eq_append.mp hprefix

theorem ofBytes_eq_ok {bytes : Bytes} {shape : Shape} :
    ofBytes bytes = .ok shape ↔ shape.toBytes = bytes := by
  refine ⟨toBytes_of_ofBytes, ?_⟩
  rintro rfl
  exact ofBytes_toBytes shape

/-- After some tags of kinds stands something else: no number, or the number of no kind. -/
def Malformed (bytes : Bytes) (e : Error) : Prop :=
  ∃ (before : Shape) (rest : Bytes), bytes = before.toBytes ++ rest ∧ rest ≠ [] ∧
    ((∃ cause, Varint.decode 64 rest = .error cause ∧ e = .varint cause) ∨
      ∃ tag used, Varint.decode 64 rest = .ok (tag, used) ∧ Kind.ofTag? tag = none ∧
        e = .unknownKind tag)

theorem malformed_cons {kind : Kind} {rest : Bytes} {e : Error} (h : Malformed rest e) :
    Malformed (Varint.encode kind.tag ++ rest) e := by
  obtain ⟨before, stop, rfl, hstop⟩ := h
  exact ⟨kind :: before, stop, by rw [toBytes_cons, List.append_assoc], hstop⟩

theorem ofBytes_of_malformed {bytes : Bytes} {e : Error} (h : Malformed bytes e) :
    ofBytes bytes = .error e := by
  obtain ⟨before, rest, rfl, hne, hstop⟩ := h
  induction before with
  | nil =>
    rw [toBytes, List.flatMap_nil, List.nil_append, ofBytes_of_ne_nil hne]
    rcases hstop with ⟨cause, hdecode, rfl⟩ | ⟨tag, used, hdecode, hkind, rfl⟩
    · rw [hdecode]
    · simp only [hdecode, hkind]
  | cons kind before ih => rw [toBytes_cons, List.append_assoc, ofBytes_cons, ih, Except.map]

theorem ofBytes_eq_error {bytes : Bytes} {e : Error} :
    ofBytes bytes = .error e ↔ Malformed bytes e := by
  refine ⟨fun h => ?_, ofBytes_of_malformed⟩
  fun_induction ofBytes bytes with
  | case1 bytes hempty => cases h
  | case2 bytes hempty cause hdecode =>
    obtain rfl := Except.error.inj h
    exact ⟨[], bytes, rfl, by simpa using hempty, .inl ⟨cause, hdecode, rfl⟩⟩
  | case3 bytes hempty tag used hdecode hkind =>
    obtain rfl := Except.error.inj h
    exact ⟨[], bytes, rfl, by simpa using hempty, .inr ⟨tag, used, hdecode, hkind, rfl⟩⟩
  | case4 bytes hempty tag used hdecode kind hkind hused ih =>
    obtain ⟨_, rfl, hfront⟩ := (Varint.decode_eq_ok (by decide)).mp hdecode
    have hbytes := List.prefix_iff_eq_append.mp hfront
    have hrest := @malformed_cons kind _ _ (ih (map_eq_error.mp h))
    rwa [Kind.tag_of_ofTag? hkind, hbytes] at hrest

end TamperEvident.Shape
