import TamperEvident.Proofs.Block.Fields

/-! One layer of a block. What is read off a window is a layer just when the
window holds the layer's tag, its fields, for a wrapper the block inside it, and
at the end the signature if there is one. -/

namespace TamperEvident

theorem Kind.tag_lt (kind : Kind) : kind.tag < 2 ^ 64 := by cases kind <;> decide

theorem length_le_sizedField (b : Bytes) : b.length ≤ (sizedField b).length := by
  rw [sizedField, List.length_append]
  omega

theorem length_le_of_mem {b : Bytes} {fields : List Bytes} (h : b ∈ fields) :
    b.length ≤ (fields.flatMap sizedField).length := by
  obtain ⟨before, after, rfl⟩ := List.append_of_mem h
  have hfield := length_le_sizedField b
  simp only [List.flatMap_append, List.flatMap_cons, List.length_append]
  omega

namespace Terminal

/-- What a terminal block writes after its tag. -/
def fields : Terminal → Bytes
  | policy version payload => Varint.encode version.toNat ++ payload
  | data payload => payload
  | reference hashes => hashes.flatMap sizedField
  | addAuthors keys => keys.flatMap sizedField
  | ack index link => Varint.encode index.toNat ++ sizedField link

/-- Fields with a length in front are no longer than a 64-bit number can say. -/
def Sized : Terminal → Prop
  | policy _ _ | data _ => True
  | reference entries | addAuthors entries => ∀ b ∈ entries, b.length < 2 ^ 64
  | ack _ link => link.length < 2 ^ 64

theorem encode_eq (content : Terminal) :
    content.encode = Varint.encode content.kind.tag ++ content.fields := by
  cases content <;> rfl

theorem sized_of_length {content : Terminal} (h : content.fields.length < 2 ^ 64) :
    content.Sized := by
  cases content with
  | policy version payload => trivial
  | data payload => trivial
  | reference hashes => exact fun b hb => Nat.lt_of_le_of_lt (length_le_of_mem hb) h
  | addAuthors keys => exact fun b hb => Nat.lt_of_le_of_lt (length_le_of_mem hb) h
  | ack index link =>
    have hlink := length_le_sizedField link
    simp only [fields, List.length_append] at h
    change link.length < 2 ^ 64
    omega

end Terminal

namespace Wrapper

/-- What stands between the tag and the block inside; `ending` stands after it. -/
def fields : Wrapper Bytes → Bytes
  | authorSignature author signature => sizedField author ++ Varint.encode signature.length
  | previousBlock hash => sizedField hash
  | inContext link => sizedField link
  | updateContext => []

def ending : Wrapper Bytes → Bytes
  | authorSignature _ signature => signature
  | previousBlock _ | inContext _ | updateContext => []

def Sized : Wrapper Bytes → Prop
  | authorSignature author signature => author.length < 2 ^ 64 ∧ signature.length < 2 ^ 64
  | previousBlock field | inContext field => field.length < 2 ^ 64
  | updateContext => True

theorem header_eq (around : Wrapper Bytes) :
    around.header List.length = Varint.encode around.kind.tag ++ around.fields := by
  cases around <;> rfl

theorem sized_of_length {around : Wrapper Bytes}
    (h : (around.fields ++ around.ending).length < 2 ^ 64) : around.Sized := by
  rw [List.length_append] at h
  cases around with
  | authorSignature author signature =>
    have hauthor := length_le_sizedField author
    simp only [fields, ending, List.length_append] at h
    exact ⟨by omega, by omega⟩
  | previousBlock hash =>
    have hhash := length_le_sizedField hash
    simp only [fields] at h
    change hash.length < 2 ^ 64
    omega
  | inContext link =>
    have hlink := length_le_sizedField link
    simp only [fields] at h
    change link.length < 2 ^ 64
    omega
  | updateContext => trivial

end Wrapper

namespace Layer

def kind : Layer → Kind
  | terminal content => content.kind
  | wrapper around _ => around.kind

def Fills (w : Window) : Layer → Prop
  | terminal content => content.Sized ∧ w.bytes = content.fields
  | wrapper around inner => around.Sized ∧
      w.bytes = around.fields ++ (inner.bytes ++ around.ending) ∧
      inner.offset = w.offset + around.fields.length

end Layer

namespace Window

theorem Cut.fills {w inner : Window} {around : Wrapper Bytes} (h : w.Cut around.fields inner)
    (hsize : around.Sized) (hending : around.ending = []) :
    (Layer.wrapper around inner).Fills w := by
  refine ⟨hsize, ?_, h.2⟩
  rw [hending, List.append_nil, h.1]

theorem fills_of_layerOf {w : Window} {kind : Kind} {l : Layer} (h : w.layerOf kind = .ok l) :
    l.kind = kind ∧ l.Fills w := by
  cases kind with
  | policy =>
    obtain ⟨⟨version, rest⟩, hversion, h⟩ := bind_eq_ok.mp h
    obtain rfl := Except.ok.inj h
    obtain ⟨hlt, hcut⟩ := varint_eq_ok.mp hversion
    refine ⟨rfl, trivial, ?_⟩
    rw [hcut.1, Terminal.fields, UInt64.toNat_ofNat_of_lt' hlt]
  | data =>
    obtain rfl := Except.ok.inj h
    exact ⟨rfl, trivial, rfl⟩
  | reference =>
    obtain ⟨hashes, hhashes, h⟩ := bind_eq_ok.mp h
    obtain rfl := Except.ok.inj h
    exact ⟨rfl, sizedAll_eq_ok.mp hhashes⟩
  | addAuthors =>
    obtain ⟨keys, hkeys, h⟩ := bind_eq_ok.mp h
    obtain rfl := Except.ok.inj h
    exact ⟨rfl, sizedAll_eq_ok.mp hkeys⟩
  | ack =>
    obtain ⟨⟨index, middle⟩, hindex, h⟩ := bind_eq_ok.mp h
    obtain ⟨⟨link, rest⟩, hlink, h⟩ := bind_eq_ok.mp h
    obtain ⟨hlt, hcut⟩ := varint_eq_ok.mp hindex
    obtain ⟨hsize, hcut'⟩ := sized_eq_ok.mp hlink
    -- nothing may follow the link, or the same fields could be read off other bytes
    by_cases hrest : rest.bytes.length = 0
    · simp only [hrest, if_true] at h
      obtain rfl := Except.ok.inj h
      have hcuts := (hcut.trans hcut').1
      rw [List.length_eq_zero_iff.mp hrest, List.append_nil] at hcuts
      refine ⟨rfl, hsize, ?_⟩
      rw [hcuts, Terminal.fields, UInt64.toNat_ofNat_of_lt' hlt]
    · simp only [hrest, if_false] at h
      cases h
  | authorSignature =>
    obtain ⟨⟨author, middle⟩, hauthor, h⟩ := bind_eq_ok.mp h
    obtain ⟨⟨size, rest⟩, hlength, h⟩ := bind_eq_ok.mp h
    obtain ⟨⟨signature, inner⟩, hsignature, h⟩ := bind_eq_ok.mp h
    obtain rfl := Except.ok.inj h
    obtain ⟨hsize, hcut⟩ := sized_eq_ok.mp hauthor
    obtain ⟨hlt, hcut'⟩ := varint_eq_ok.mp hlength
    -- the signature comes off the end, so the block inside has all that stands between
    obtain ⟨rfl, hbytes, hoffset⟩ := fieldAtEnd_eq_ok.mp hsignature
    have hcuts := hcut.trans hcut'
    refine ⟨rfl, ⟨hsize, hlt⟩, ?_, hoffset.trans hcuts.2⟩
    rw [hcuts.1, hbytes]
    rfl
  | previousBlock =>
    obtain ⟨⟨hash, inner⟩, hhash, h⟩ := bind_eq_ok.mp h
    obtain rfl := Except.ok.inj h
    obtain ⟨hsize, hcut⟩ := sized_eq_ok.mp hhash
    exact ⟨rfl, Cut.fills hcut hsize rfl⟩
  | inContext =>
    obtain ⟨⟨link, inner⟩, hlink, h⟩ := bind_eq_ok.mp h
    obtain rfl := Except.ok.inj h
    obtain ⟨hsize, hcut⟩ := sized_eq_ok.mp hlink
    exact ⟨rfl, Cut.fills hcut hsize rfl⟩
  | updateContext =>
    obtain rfl := Except.ok.inj h
    exact ⟨rfl, Cut.fills ⟨rfl, rfl⟩ trivial rfl⟩

theorem layerOf_terminal {w : Window} {content : Terminal} (hsize : content.Sized)
    (hbytes : w.bytes = content.fields) : w.layerOf content.kind = .ok (.terminal content) := by
  cases content with
  | policy version payload =>
    obtain ⟨rest, hcut, hrest⟩ := exists_cut hbytes
    have hversion := varint_eq_ok.mpr ⟨version.toNat_lt, hcut⟩
    refine bind_eq_ok.mpr ⟨_, hversion, ?_⟩
    simp only [UInt64.ofNat_toNat, hrest]
    rfl
  | data payload =>
    obtain rfl : w.bytes = payload := hbytes
    rfl
  | reference hashes => exact bind_eq_ok.mpr ⟨_, sizedAll_eq_ok.mpr ⟨hsize, hbytes⟩, rfl⟩
  | addAuthors keys => exact bind_eq_ok.mpr ⟨_, sizedAll_eq_ok.mpr ⟨hsize, hbytes⟩, rfl⟩
  | ack index link =>
    obtain ⟨middle, hcut, hmiddle⟩ := exists_cut hbytes
    have hindex := varint_eq_ok.mpr ⟨index.toNat_lt, hcut⟩
    obtain ⟨rest, hcut', hrest⟩ := exists_cut (hmiddle.trans (List.append_nil _).symm)
    have hlink := sized_eq_ok.mpr ⟨hsize, hcut'⟩
    refine bind_eq_ok.mpr ⟨_, hindex, bind_eq_ok.mpr ⟨_, hlink, ?_⟩⟩
    simp only [hrest, UInt64.ofNat_toNat, List.length_nil, if_true]
    rfl

theorem layerOf_wrapper {w inner : Window} {around : Wrapper Bytes}
    (h : (Layer.wrapper around inner).Fills w) :
    w.layerOf around.kind = .ok (.wrapper around inner) := by
  obtain ⟨hsize, hbytes, hoffset⟩ := h
  cases around with
  | authorSignature author signature =>
    obtain ⟨hauthor, hsignature⟩ := hsize
    rw [Wrapper.fields, List.append_assoc] at hbytes
    obtain ⟨middle, hcut, hmiddle⟩ := exists_cut hbytes
    obtain ⟨rest, hcut', hrest⟩ := exists_cut hmiddle
    have hend : inner.offset = rest.offset := hoffset.trans (hcut.trans hcut').2.symm
    refine bind_eq_ok.mpr ⟨_, sized_eq_ok.mpr ⟨hauthor, hcut⟩, ?_⟩
    refine bind_eq_ok.mpr ⟨_, varint_eq_ok.mpr ⟨hsignature, hcut'⟩, ?_⟩
    exact bind_eq_ok.mpr ⟨_, fieldAtEnd_eq_ok.mpr ⟨rfl, hrest, hend⟩, rfl⟩
  | previousBlock hash =>
    rw [Wrapper.ending, List.append_nil] at hbytes
    exact bind_eq_ok.mpr ⟨_, sized_eq_ok.mpr ⟨hsize, hbytes, hoffset⟩, rfl⟩
  | inContext link =>
    rw [Wrapper.ending, List.append_nil] at hbytes
    exact bind_eq_ok.mpr ⟨_, sized_eq_ok.mpr ⟨hsize, hbytes, hoffset⟩, rfl⟩
  | updateContext =>
    obtain ⟨offset, bytes⟩ := inner
    rw [Wrapper.fields, Wrapper.ending, List.nil_append, List.append_nil] at hbytes
    obtain rfl : bytes = w.bytes := hbytes.symm
    obtain rfl : offset = w.offset := hoffset
    rfl

theorem layerOf_eq_ok {w : Window} {kind : Kind} {l : Layer} :
    w.layerOf kind = .ok l ↔ l.kind = kind ∧ l.Fills w := by
  constructor
  · exact fills_of_layerOf
  · rintro ⟨rfl, h⟩
    cases l with
    | terminal content => exact layerOf_terminal h.1 h.2
    | wrapper around inner => exact layerOf_wrapper h

theorem layer_eq_ok {w : Window} {l : Layer} :
    w.layer = .ok l ↔ ∃ rest, w.Cut (Varint.encode l.kind.tag) rest ∧ l.Fills rest := by
  rw [layer, bind_eq_ok]
  constructor
  · rintro ⟨⟨tag, rest⟩, htag, h⟩
    obtain ⟨_, hcut⟩ := varint_eq_ok.mp htag
    cases hkind : Kind.ofTag? tag with
    | none =>
      simp only [hkind] at h
      cases h
    | some kind =>
      simp only [hkind] at h
      obtain ⟨rfl, hfills⟩ := layerOf_eq_ok.mp h
      rw [← Kind.tag_of_ofTag? hkind] at hcut
      exact ⟨rest, hcut, hfills⟩
  · rintro ⟨rest, hcut, hfills⟩
    refine ⟨(l.kind.tag, rest), varint_eq_ok.mpr ⟨l.kind.tag_lt, hcut⟩, ?_⟩
    simp only [Kind.ofTag?_tag]
    exact layerOf_eq_ok.mpr ⟨rfl, hfills⟩

theorem bytes_of_layer_terminal {w : Window} {content : Terminal}
    (h : w.layer = .ok (.terminal content)) : w.bytes = content.encode := by
  obtain ⟨rest, hcut, _, hrest⟩ := layer_eq_ok.mp h
  rw [hcut.1, hrest, Terminal.encode_eq]
  rfl

theorem bytes_of_layer_wrapper {w inner : Window} {around : Wrapper Bytes}
    (h : w.layer = .ok (.wrapper around inner)) :
    w.bytes = around.header List.length ++ (inner.bytes ++ around.ending) := by
  obtain ⟨rest, hcut, _, hrest, _⟩ := layer_eq_ok.mp h
  rw [hcut.1, hrest, Wrapper.header_eq, List.append_assoc]
  rfl

/-- Only fields with a length in front have to fit in 64 bits, not the block as a whole. -/
theorem layer_of_sized {w : Window} {content : Terminal} (hsize : content.Sized)
    (hbytes : w.bytes = content.encode) : w.layer = .ok (.terminal content) := by
  rw [Terminal.encode_eq] at hbytes
  obtain ⟨rest, hcut, hrest⟩ := exists_cut hbytes
  exact layer_eq_ok.mpr ⟨rest, hcut, hsize, hrest⟩

theorem layer_of_terminal {w : Window} {content : Terminal} (hbytes : w.bytes = content.encode)
    (hsize : w.bytes.length < 2 ^ 64) : w.layer = .ok (.terminal content) := by
  have hfields : content.fields.length < 2 ^ 64 := by
    rw [hbytes, Terminal.encode_eq, List.length_append] at hsize
    omega
  exact layer_of_sized (Terminal.sized_of_length hfields) hbytes

theorem layer_of_wrapper {w : Window} {around : Wrapper Bytes} {message : Bytes}
    (hbytes : w.bytes = around.header List.length ++ (message ++ around.ending))
    (hsize : w.bytes.length < 2 ^ 64) :
    ∃ inner, w.layer = .ok (.wrapper around inner) ∧ inner.bytes = message := by
  rw [Wrapper.header_eq, List.append_assoc] at hbytes
  obtain ⟨rest, hcut, hrest⟩ := exists_cut hbytes
  have hfields : around.Sized := by
    simp only [hbytes, List.length_append] at hsize
    exact Wrapper.sized_of_length (by rw [List.length_append]; omega)
  have hfills : (Layer.wrapper around ⟨rest.offset + around.fields.length, message⟩).Fills rest :=
    ⟨hfields, hrest, rfl⟩
  exact ⟨_, layer_eq_ok.mpr ⟨rest, hcut, hfills⟩, rfl⟩

end Window

namespace Block

theorem parseWindow_of_terminal {limit room : Nat} {w : Window} {content : Terminal}
    (h : w.layer = .ok (.terminal content)) :
    parseWindow limit (room + 1) w = .ok (terminal w.bytes content) := by
  rw [parseWindow, h]

theorem parse_terminal {limit : Nat} {content : Terminal} (hlimit : limit ≠ 0)
    (hsize : content.Sized) :
    parse limit content.encode = .ok (terminal content.encode content) := by
  obtain ⟨room, rfl⟩ := Nat.exists_eq_succ_of_ne_zero hlimit
  exact parseWindow_of_terminal (Window.layer_of_sized hsize rfl)

theorem parseWindow_of_wrapper {limit room : Nat} {w inner : Window} {around : Wrapper Bytes}
    (h : w.layer = .ok (.wrapper around inner)) :
    parseWindow limit (room + 1) w =
      (parseWindow limit room inner).map (wrapped w.bytes around) := by
  rw [parseWindow, h]

theorem parseWindow_cases {limit room : Nat} {w : Window} {b : Block}
    (h : parseWindow limit (room + 1) w = .ok b) :
    (∃ content, w.layer = .ok (.terminal content) ∧ b = terminal w.bytes content) ∨
      ∃ around inner block, w.layer = .ok (.wrapper around inner) ∧
        parseWindow limit room inner = .ok block ∧ b = wrapped w.bytes around block := by
  cases hl : w.layer with
  | error e => simp [parseWindow, hl] at h
  | ok l =>
    cases l with
    | terminal content =>
      rw [parseWindow_of_terminal hl] at h
      exact .inl ⟨content, rfl, (Except.ok.inj h).symm⟩
    | wrapper around inner =>
      rw [parseWindow_of_wrapper hl] at h
      obtain ⟨block, hblock, rfl⟩ := map_eq_ok.mp h
      exact .inr ⟨around, inner, block, rfl, hblock, rfl⟩

theorem raw_parseWindow {limit room : Nat} {w : Window} {b : Block}
    (h : parseWindow limit room w = .ok b) : b.raw = w.bytes := by
  cases room with
  | zero => simp [parseWindow] at h
  | succ room =>
    rcases parseWindow_cases h with ⟨content, _, rfl⟩ | ⟨around, inner, block, _, _, rfl⟩
    · rfl
    · rfl

theorem raw_parse {limit : Nat} {raw : Bytes} {b : Block} (h : parse limit raw = .ok b) :
    b.raw = raw := raw_parseWindow h

end Block

end TamperEvident
