import TamperEvident.Proofs.Block.Encoding

/-! Writing and reading are inverse to each other: what a draft writes is read
back as the draft's fields, and what is read is what its fields write. -/

namespace TamperEvident

/-- The block is what the draft writes. Each signature is the one made over the
bytes of the block inside, and each layer holds its own encoding. -/
inductive Draft.WrittenAs : Draft → Block → Prop
  | terminal {content : Terminal} {raw : Bytes}
      (hraw : (Draft.terminal content).encode = .ok raw) :
      WrittenAs (.terminal content) (.terminal raw content)
  | wrapped {around : Wrapper SignatureSource} {inner : Draft} {signed : Wrapper Bytes}
      {block : Block} {raw : Bytes} (hinner : WrittenAs inner block)
      (hsigned : around.sign block.raw = .ok signed)
      (hraw : (Draft.wrapped around inner).encode = .ok raw) :
      WrittenAs (.wrapped around inner) (.wrapped raw signed block)

namespace Draft

theorem WrittenAs.of_precomputed {around : Wrapper Bytes} {inner : Draft} {b : Block}
    (h : (Draft.wrapped (around.map .precomputed) inner).WrittenAs b) :
    ∃ raw block, inner.WrittenAs block ∧ b = .wrapped raw around block := by
  cases h with
  | wrapped hinner hsigned hraw =>
    rw [Wrapper.sign_map_precomputed] at hsigned
    obtain rfl := Except.ok.inj hsigned
    exact ⟨_, _, hinner, rfl⟩

theorem layer_of_encode {around : Wrapper SignatureSource} {inner : Draft} {w : Window}
    (h : (wrapped around inner).encode = .ok w.bytes) (hsize : w.bytes.length < 2 ^ 64) :
    ∃ signed window, w.layer = .ok (.wrapper signed window) ∧
      inner.encode = .ok window.bytes ∧ window.bytes.length < 2 ^ 64 ∧
      around.sign window.bytes = .ok signed := by
  obtain ⟨message, signed, hmessage, hsigned, hbytes⟩ := encode_wrapped_eq_ok.mp h
  obtain ⟨window, hlayer, rfl⟩ := Window.layer_of_wrapper hbytes hsize
  simp only [hbytes, List.length_append] at hsize
  exact ⟨signed, window, hlayer, hmessage, by omega, hsigned⟩

theorem parseWindow_of_encode {draft : Draft} {limit room : Nat} {w : Window}
    (h : draft.encode = .ok w.bytes) (hsize : w.bytes.length < 2 ^ 64)
    (hroom : draft.depth ≤ room) :
    ∃ block, Block.parseWindow limit room w = .ok block ∧ draft.WrittenAs block := by
  induction draft generalizing w room with
  | terminal content =>
    obtain ⟨room, rfl⟩ := Nat.exists_eq_add_one.mpr hroom
    have hlayer := Window.layer_of_terminal (Except.ok.inj h).symm hsize
    exact ⟨_, Block.parseWindow_of_terminal hlayer, .terminal h⟩
  | wrapped around inner ih =>
    obtain ⟨room, rfl⟩ := Nat.exists_eq_add_one.mpr (Nat.zero_lt_of_lt hroom)
    obtain ⟨signed, window, hlayer, hmessage, hinner, hsigned⟩ := layer_of_encode h hsize
    obtain ⟨block, hblock, hwritten⟩ := ih hmessage hinner (Nat.le_of_succ_le_succ hroom)
    -- the block read inside holds the very bytes that the signature was made over
    rw [← Block.raw_parseWindow hblock] at hsigned
    refine ⟨.wrapped w.bytes signed block, ?_, .wrapped hwritten hsigned h⟩
    rw [Block.parseWindow_of_wrapper hlayer, hblock]
    rfl

theorem parseWindow_tooDeep {draft : Draft} {limit room : Nat} {w : Window}
    (h : draft.encode = .ok w.bytes) (hsize : w.bytes.length < 2 ^ 64)
    (hroom : room < draft.depth) : Block.parseWindow limit room w = .error (.tooDeep limit) := by
  induction room generalizing draft w with
  | zero => rw [Block.parseWindow]
  | succ room ih =>
    cases draft with
    | terminal content =>
      rw [depth] at hroom
      omega
    | wrapped around inner =>
      obtain ⟨signed, window, hlayer, hmessage, hinner, _⟩ := layer_of_encode h hsize
      rw [Block.parseWindow_of_wrapper hlayer, ih hmessage hinner (Nat.lt_of_succ_lt_succ hroom)]
      rfl

theorem writtenAs_of_parse {draft : Draft} {limit : Nat} {raw : Bytes} {b : Block}
    (h : draft.encode = .ok raw) (hsize : raw.length < 2 ^ 64)
    (hb : Block.parse limit raw = .ok b) : draft.WrittenAs b := by
  have hencode : draft.encode = .ok (⟨0, raw⟩ : Window).bytes := h
  have hdepth : draft.depth ≤ limit := by
    by_contra hlt
    have hdeep := @parseWindow_tooDeep _ limit _ _ hencode hsize (Nat.lt_of_not_le hlt)
    rw [Block.parse, hdeep] at hb
    cases hb
  obtain ⟨block, hblock, hwritten⟩ := @parseWindow_of_encode _ limit _ _ hencode hsize hdepth
  rw [Block.parse, hblock] at hb
  obtain rfl := Except.ok.inj hb
  exact hwritten

/-- What a draft writes is read back with the draft's fields on every layer when
the limit allows its depth, and is refused as too deep when not. The bytes are
those of a buffer, whose length is a 64-bit number. -/
theorem parse_encode {draft : Draft} {bytes : Bytes} (h : draft.encode = .ok bytes)
    (hsize : bytes.length < 2 ^ 64) (limit : Nat) :
    (draft.depth ≤ limit →
      ∃ block, Block.parse limit bytes = .ok block ∧ block.raw = bytes ∧ draft.WrittenAs block) ∧
    (limit < draft.depth → Block.parse limit bytes = .error (.tooDeep limit)) := by
  constructor
  · intro hdepth
    obtain ⟨block, hblock, hwritten⟩ := parseWindow_of_encode (w := ⟨0, bytes⟩) h hsize hdepth
    exact ⟨block, hblock, Block.raw_parse hblock, hwritten⟩
  · intro hdepth
    exact parseWindow_tooDeep h hsize hdepth

/-- An acknowledgement signed by the first two of its own bytes. -/
def signedAck : Draft :=
  .wrapped .updateContext
    (.wrapped (.authorSignature [7] (.deferred ⟨2, fun message => .ok (message.take 2)⟩))
      (.terminal (.ack 300 [])))

theorem parse_encode_signedAck :
    signedAck.encode = .ok [85, 83, 1, 7, 2, 75, 172, 2, 0, 75, 172] ∧
    (∃ block, Block.parse 3 [85, 83, 1, 7, 2, 75, 172, 2, 0, 75, 172] = .ok block ∧
      block.raw = [85, 83, 1, 7, 2, 75, 172, 2, 0, 75, 172] ∧ signedAck.WrittenAs block) ∧
    Block.parse 2 [85, 83, 1, 7, 2, 75, 172, 2, 0, 75, 172] = .error (.tooDeep 2) := by
  have hencode : signedAck.encode = .ok [85, 83, 1, 7, 2, 75, 172, 2, 0, 75, 172] := by cbv
  refine ⟨hencode, ?_, ?_⟩
  · exact (parse_encode hencode (by decide) 3).1 (by decide)
  · exact (parse_encode hencode (by decide) 2).2 (by decide)

end Draft

namespace Block

def SameFields : Block → Block → Prop
  | terminal _ content, terminal _ content' => content = content'
  | wrapped _ around inner, wrapped _ around' inner' => around = around' ∧ inner.SameFields inner'
  | _, _ => False

theorem SameFields.toDraft_eq {b c : Block} (h : b.SameFields c) : b.toDraft = c.toDraft := by
  induction b generalizing c with
  | terminal raw content =>
    cases c with
    | terminal raw' content' => rw [toDraft, toDraft, show content = content' from h]
    | wrapped raw' around' inner' => exact h.elim
  | wrapped raw around inner ih =>
    cases c with
    | terminal raw' content' => exact h.elim
    | wrapped raw' around' inner' =>
      obtain ⟨hwrapper, hinner⟩ := h
      rw [toDraft, toDraft, hwrapper, ih hinner]

theorem encode_of_parseWindow {limit room : Nat} {w : Window} {b : Block}
    (h : parseWindow limit room w = .ok b) :
    b.toDraft.encode = .ok w.bytes ∧ b.toDraft.depth ≤ room := by
  induction room generalizing w b with
  | zero => simp [parseWindow] at h
  | succ room ih =>
    rcases parseWindow_cases h with
      ⟨content, hlayer, rfl⟩ | ⟨around, inner, block, hlayer, hblock, rfl⟩
    · rw [Window.bytes_of_layer_terminal hlayer, toDraft, Draft.depth]
      exact ⟨rfl, by omega⟩
    · obtain ⟨hencode, hdepth⟩ := ih hblock
      have hsigned := around.sign_map_precomputed inner.bytes
      have hbytes := Window.bytes_of_layer_wrapper hlayer
      rw [toDraft, Draft.depth]
      exact ⟨Draft.encode_wrapped_eq_ok.mpr ⟨_, _, hencode, hsigned, hbytes⟩, by omega⟩

/-- The parser accepts the encodings of drafts within the limit and nothing else,
and no two of them hold the same fields. -/
theorem encode_parse (limit : Nat) (raw : Bytes) :
    (∀ b, parse limit raw = .ok b → b.toDraft.encode = .ok raw) ∧
    (raw.length < 2 ^ 64 → ((∃ b, parse limit raw = .ok b) ↔
      ∃ draft : Draft, draft.depth ≤ limit ∧ draft.encode = .ok raw)) ∧
    (∀ b limit' raw' c, parse limit raw = .ok b → parse limit' raw' = .ok c →
      b.SameFields c → raw = raw') := by
  refine ⟨?_, ?_, ?_⟩
  · intro b h
    exact (encode_of_parseWindow h).1
  · intro hsize
    constructor
    · rintro ⟨b, h⟩
      obtain ⟨hencode, hdepth⟩ := encode_of_parseWindow h
      exact ⟨b.toDraft, hdepth, hencode⟩
    · rintro ⟨draft, hdepth, hencode⟩
      obtain ⟨b, h, _⟩ := Draft.parseWindow_of_encode (w := ⟨0, raw⟩) hencode hsize hdepth
      exact ⟨b, h⟩
  · intro b limit' raw' c h h' hsame
    have hb := (encode_of_parseWindow h).1
    have hc := (encode_of_parseWindow h').1
    rw [hsame.toDraft_eq, hc] at hb
    exact (Except.ok.inj hb).symm

/-- A signed reference to an empty hash and one of a single byte. -/
theorem encode_parse_signedReference :
    ∃ b, parse 2 [83, 1, 7, 2, 82, 0, 1, 5, 9, 9] = .ok b ∧
      b.toDraft.encode = .ok [83, 1, 7, 2, 82, 0, 1, 5, 9, 9] ∧
      (∃ draft : Draft, draft.depth ≤ 2 ∧ draft.encode = .ok [83, 1, 7, 2, 82, 0, 1, 5, 9, 9]) ∧
      ∀ limit raw c, parse limit raw = .ok c → b.SameFields c →
        raw = [83, 1, 7, 2, 82, 0, 1, 5, 9, 9] := by
  have hparse : parse 2 [83, 1, 7, 2, 82, 0, 1, 5, 9, 9] = .ok
      (.wrapped [83, 1, 7, 2, 82, 0, 1, 5, 9, 9] (.authorSignature [7] [9, 9])
        (.terminal [82, 0, 1, 5] (.reference [[], [5]]))) := by cbv
  obtain ⟨hencode, haccepted, hunique⟩ := encode_parse 2 [83, 1, 7, 2, 82, 0, 1, 5, 9, 9]
  refine ⟨_, hparse, hencode _ hparse, (haccepted (by decide)).mp ⟨_, hparse⟩, ?_⟩
  intro limit raw c h hsame
  exact (hunique _ limit raw c hparse h hsame).symm

end Block

end TamperEvident
