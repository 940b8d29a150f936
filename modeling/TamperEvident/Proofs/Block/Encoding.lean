import TamperEvident.Proofs.Block.Layer

/-! What a draft writes. The bytes already in the buffer do not matter, so the
encoding of a wrapped draft is its fields around the encoding of the inner draft,
and a signature is made over that inner encoding alone. -/

namespace TamperEvident

namespace SignatureSource

theorem length_of_signatureOver {source : SignatureSource} {message signature : Bytes}
    (h : source.signatureOver message = .ok signature) : signature.length = source.length := by
  cases source with
  | precomputed known =>
    obtain rfl := Except.ok.inj h
    rfl
  | deferred signer =>
    rw [signatureOver] at h
    split at h
    · simp at h
    · rename_i made _
      by_cases hlength : made.length = signer.signatureLength
      · simp only [hlength, if_true] at h
        obtain rfl := Except.ok.inj h
        exact hlength
      · simp [hlength] at h

end SignatureSource

namespace Wrapper

def sign (message : Bytes) : Wrapper SignatureSource → Except BlockError (Wrapper Bytes)
  | authorSignature author source => (source.signatureOver message).map (authorSignature author)
  | previousBlock hash => .ok (previousBlock hash)
  | inContext link => .ok (inContext link)
  | updateContext => .ok updateContext

theorem trailer_eq (message : Bytes) (around : Wrapper SignatureSource) :
    around.trailer message = (around.sign message).map ending := by
  cases around with
  | authorSignature author source =>
    rw [trailer, sign]
    cases source.signatureOver message with
    | error e => rfl
    | ok signature => rfl
  | previousBlock hash => rfl
  | inContext link => rfl
  | updateContext => rfl

theorem header_of_sign {around : Wrapper SignatureSource} {message : Bytes}
    {signed : Wrapper Bytes} (h : around.sign message = .ok signed) :
    around.header SignatureSource.length = signed.header List.length := by
  cases around with
  | authorSignature author source =>
    obtain ⟨signature, hsignature, rfl⟩ := map_eq_ok.mp h
    have hlength := SignatureSource.length_of_signatureOver hsignature
    simp only [header, kind, hlength]
  | previousBlock hash =>
    obtain rfl := Except.ok.inj h
    rfl
  | inContext link =>
    obtain rfl := Except.ok.inj h
    rfl
  | updateContext =>
    obtain rfl := Except.ok.inj h
    rfl

@[simp] theorem sign_map_precomputed (message : Bytes) (around : Wrapper Bytes) :
    (around.map .precomputed).sign message = .ok around := by
  cases around <;> rfl

end Wrapper

namespace Draft

def depth : Draft → Nat
  | terminal _ => 1
  | wrapped _ inner => inner.depth + 1

/-- A draft adds its own encoding to a buffer, whatever the buffer holds. -/
theorem appendTo_eq (draft : Draft) (buffer : Bytes) :
    draft.appendTo buffer = draft.encode.map (buffer ++ ·) := by
  induction draft generalizing buffer with
  | terminal content => rfl
  | wrapped around inner ih =>
    rw [encode, appendTo, appendTo, ih, ih ([] ++ _)]
    cases inner.encode with
    | error e => rfl
    | ok message =>
      -- what is signed is the buffer less the part before the inner draft
      have hsigned (start : Bytes) : (start ++ message).drop start.length = message :=
        List.drop_left
      simp only [Except.map, bind, Except.bind, hsigned]
      cases around.trailer message with
      | error e => rfl
      | ok trailer => simp [pure, Except.pure]

/-- The encoding of a wrapped draft from that of the draft inside: the fields of the wrapper are
written around it, with the signature made over it. -/
theorem encode_wrapped (around : Wrapper SignatureSource) (inner : Draft) :
    (wrapped around inner).encode = inner.encode >>= fun message =>
      (around.sign message).map fun signed =>
        signed.header List.length ++ (message ++ signed.ending) := by
  rw [encode, appendTo, appendTo_eq]
  cases inner.encode with
  | error e => rfl
  | ok message =>
    simp only [Except.map, bind, Except.bind, List.drop_left, Wrapper.trailer_eq]
    cases hsigned : around.sign message with
    | error e => rfl
    | ok signed =>
      simp [pure, Except.pure, Wrapper.header_of_sign hsigned]

theorem encode_wrapped_eq_ok {around : Wrapper SignatureSource} {inner : Draft} {bytes : Bytes} :
    (wrapped around inner).encode = .ok bytes ↔
      ∃ message signed, inner.encode = .ok message ∧ around.sign message = .ok signed ∧
        bytes = signed.header List.length ++ (message ++ signed.ending) := by
  rw [encode_wrapped, bind_eq_ok]
  simp only [map_eq_ok]
  constructor
  · rintro ⟨message, hmessage, signed, hsigned, rfl⟩
    exact ⟨message, signed, hmessage, hsigned, rfl⟩
  · rintro ⟨message, signed, hmessage, hsigned, rfl⟩
    exact ⟨message, hmessage, signed, hsigned, rfl⟩

end Draft

end TamperEvident
