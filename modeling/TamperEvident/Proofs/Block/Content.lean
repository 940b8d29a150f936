import TamperEvident.Proofs.Block.RoundTrip

/-! The content at the bottom of a nesting, and the layers around it. A draft that
can be read back is read back with its own content: fields of any length are told
apart by what stands in front of them. -/

namespace TamperEvident

namespace Block

def content : Block → Terminal
  | terminal _ content => content
  | wrapped _ _ inner => inner.content

theorem exists_innermost (b : Block) : ∃ raw, b.innermost = .terminal raw b.content := by
  induction b with
  | terminal raw content => exact ⟨raw, rfl⟩
  | wrapped raw around inner ih => exact ih

theorem shape_wrapped (raw : Bytes) (around : Wrapper Bytes) (inner : Block) :
    (wrapped raw around inner).shape = around.kind :: inner.shape := rfl

theorem updatesContext_wrapped (raw : Bytes) (around : Wrapper Bytes) (inner : Block) :
    (wrapped raw around inner).updatesContext =
      (around.kind == .updateContext || inner.updatesContext) := by
  cases around <;> rfl

theorem updatesContext_iff {b : Block} : b.updatesContext = true ↔ .updateContext ∈ b.shape := by
  induction b with
  | terminal raw content =>
    cases content <;> simp [updatesContext, shape, layers, kind, Terminal.kind]
  | wrapped raw around inner ih =>
    rw [updatesContext_wrapped, shape_wrapped, Bool.or_eq_true, ih, beq_iff_eq, List.mem_cons,
      eq_comm]

end Block

theorem Varint.encode_append_inj {m n : Nat} {r s : Bytes}
    (h : Varint.encode m ++ r = Varint.encode n ++ s) : m = n ∧ r = s := by
  have hm : m < 2 ^ (m + n + 1) := Nat.lt_of_lt_of_le Nat.lt_two_pow_self
    (Nat.pow_le_pow_right (by omega) (by omega))
  have hn : n < 2 ^ (m + n + 1) := Nat.lt_of_lt_of_le Nat.lt_two_pow_self
    (Nat.pow_le_pow_right (by omega) (by omega))
  -- with room for both numbers there is only one that can be read
  have hread := (Varint.decode_eq_ok (by omega)).mpr ⟨hm, rfl, List.prefix_append _ r⟩
  rw [h, (Varint.decode_eq_ok (by omega)).mpr ⟨hn, rfl, List.prefix_append _ s⟩] at hread
  obtain rfl := (Prod.mk.inj (Except.ok.inj hread)).1
  exact ⟨rfl, List.append_cancel_left h⟩

theorem sizedField_append_inj {b c r s : Bytes} (h : sizedField b ++ r = sizedField c ++ s) :
    b = c ∧ r = s := by
  rw [sizedField, sizedField, List.append_assoc, List.append_assoc] at h
  obtain ⟨hlength, h⟩ := Varint.encode_append_inj h
  exact List.append_inj h hlength

theorem sizedField_ne_nil (b : Bytes) : sizedField b ≠ [] := by
  intro h
  have hh : Varint.encode b.length ++ b = [] := h
  rw [List.append_eq_nil_iff, Varint.encode] at hh
  split at hh <;> simp at hh

theorem flatMap_sizedField_inj {l l' : List Bytes}
    (h : l.flatMap sizedField = l'.flatMap sizedField) : l = l' := by
  induction l generalizing l' with
  | nil =>
    cases l' with
    | nil => rfl
    | cons c rest =>
      rw [List.flatMap_nil, List.flatMap_cons, eq_comm, List.append_eq_nil_iff] at h
      exact absurd h.1 (sizedField_ne_nil c)
  | cons b rest ih =>
    cases l' with
    | nil =>
      rw [List.flatMap_nil, List.flatMap_cons, List.append_eq_nil_iff] at h
      exact absurd h.1 (sizedField_ne_nil b)
    | cons c rest' =>
      rw [List.flatMap_cons, List.flatMap_cons] at h
      obtain ⟨rfl, hrest⟩ := sizedField_append_inj h
      rw [ih hrest]

namespace Terminal

theorem fields_inj {c d : Terminal} (hkind : c.kind = d.kind) (h : c.fields = d.fields) :
    c = d := by
  cases c <;> cases d <;> try cases hkind
  case policy version payload version' payload' =>
    obtain ⟨hversion, rfl⟩ := Varint.encode_append_inj h
    rw [UInt64.toNat_inj.mp hversion]
  case data payload payload' => rw [show payload = payload' from h]
  case reference hashes hashes' => rw [flatMap_sizedField_inj h]
  case addAuthors keys keys' => rw [flatMap_sizedField_inj h]
  case ack index link index' link' =>
    obtain ⟨hindex, h⟩ := Varint.encode_append_inj h
    rw [← List.append_nil (sizedField link), ← List.append_nil (sizedField link')] at h
    rw [UInt64.toNat_inj.mp hindex, (sizedField_append_inj h).1]

theorem encode_inj {c d : Terminal} (h : c.encode = d.encode) : c = d := by
  rw [encode_eq, encode_eq] at h
  obtain ⟨htag, h⟩ := Varint.encode_append_inj h
  exact fields_inj (Kind.eq_of_tag_eq htag) h

theorem isWrapper_kind (c : Terminal) : c.kind.isWrapper = false := by cases c <;> rfl

end Terminal

namespace Wrapper

theorem isWrapper_kind {σ : Type} (around : Wrapper σ) : around.kind.isWrapper = true := by
  cases around <;> rfl

theorem encode_inj {c d : Wrapper Bytes} {message message' : Bytes}
    (h : c.header List.length ++ (message ++ c.ending) =
      d.header List.length ++ (message' ++ d.ending)) : message = message' := by
  rw [header_eq, header_eq, List.append_assoc, List.append_assoc] at h
  obtain ⟨htag, h⟩ := Varint.encode_append_inj h
  have hkind := Kind.eq_of_tag_eq htag
  cases c <;> cases d <;> try cases hkind
  case authorSignature author signature author' signature' =>
    simp only [fields, ending, List.append_assoc] at h
    obtain ⟨_, h⟩ := sizedField_append_inj h
    obtain ⟨hlength, h⟩ := Varint.encode_append_inj h
    exact (List.append_inj' h hlength).1
  case previousBlock hash hash' =>
    simpa only [ending, List.append_nil] using (sizedField_append_inj h).2
  case inContext link link' =>
    simpa only [ending, List.append_nil] using (sizedField_append_inj h).2
  case updateContext => simpa only [fields, ending, List.append_nil, List.nil_append] using h

theorem header_ne_terminal {c : Terminal} {d : Wrapper Bytes} {rest : Bytes} :
    c.encode ≠ d.header List.length ++ rest := by
  intro h
  rw [Terminal.encode_eq, header_eq, List.append_assoc] at h
  have hkind := Kind.eq_of_tag_eq (Varint.encode_append_inj h).1
  have hwrapper := d.isWrapper_kind
  rw [← hkind, c.isWrapper_kind] at hwrapper
  cases hwrapper

end Wrapper

namespace Draft

def content : Draft → Terminal
  | terminal content => content
  | wrapped _ inner => inner.content

theorem content_eq_of_encode {draft draft' : Draft} {raw : Bytes} (h : draft.encode = .ok raw)
    (h' : draft'.encode = .ok raw) : draft.content = draft'.content := by
  induction draft generalizing draft' raw with
  | terminal c =>
    obtain rfl := Except.ok.inj h
    cases draft' with
    | terminal d => exact Terminal.encode_inj (Except.ok.inj h').symm
    | wrapped around' inner' =>
      obtain ⟨_, _, _, _, hraw⟩ := encode_wrapped_eq_ok.mp h'
      exact absurd hraw Wrapper.header_ne_terminal
  | wrapped around inner ih =>
    obtain ⟨message, signed, hmessage, _, rfl⟩ := encode_wrapped_eq_ok.mp h
    cases draft' with
    | terminal d => exact absurd (Except.ok.inj h') Wrapper.header_ne_terminal
    | wrapped around' inner' =>
      obtain ⟨message', signed', hmessage', _, hraw⟩ := encode_wrapped_eq_ok.mp h'
      rw [← Wrapper.encode_inj hraw] at hmessage'
      have hinner := ih hmessage hmessage'
      exact hinner

end Draft

theorem Block.content_toDraft (b : Block) : b.toDraft.content = b.content := by
  induction b with
  | terminal raw content => rfl
  | wrapped raw around inner ih => exact ih

theorem Draft.content_of_parse {draft : Draft} {limit : Nat} {raw : Bytes} {b : Block}
    (h : draft.encode = .ok raw) (hb : Block.parse limit raw = .ok b) :
    b.content = draft.content := by
  have hback := (Block.encode_of_parseWindow hb).1
  rw [← Block.content_toDraft, content_eq_of_encode hback h]

end TamperEvident
