import TamperEvident.Proofs.Block.Encoding

/-! Signatures made while a draft is written. Each covers what the draft inside writes on its own,
so they could all have been made beforehand, and when signers fail it is the innermost of them
that stops the writing. -/

namespace TamperEvident

namespace Signer

def Signs (signer : Signer) (message signature : Bytes) : Prop :=
  signer.sign message = .ok signature ∧ signature.length = signer.signatureLength

/-- The signer gives no signature for a message, or one of another length than it announces. -/
def Fails (signer : Signer) (message : Bytes) (reason : String) : Prop :=
  signer.sign message = .error reason ∨
    ∃ signature, signer.sign message = .ok signature ∧
      signature.length ≠ signer.signatureLength ∧
      reason = "signer produced " ++ toString signature.length ++ " bytes, announced " ++
        toString signer.signatureLength

end Signer

namespace SignatureSource

variable {signer : Signer} {message : Bytes}

theorem signatureOver_deferred_eq_ok {signature : Bytes} :
    (deferred signer).signatureOver message = .ok signature ↔ signer.Signs message signature := by
  rw [signatureOver, Signer.Signs]
  cases signer.sign message with
  | error reason => simp
  | ok made =>
    by_cases hlength : made.length = signer.signatureLength
    · simp only [hlength, if_true, Except.ok.injEq]
      exact ⟨fun h => ⟨h, h ▸ hlength⟩, And.left⟩
    · simp only [hlength, if_false, Except.ok.injEq, reduceCtorEq, false_iff]
      rintro ⟨rfl, h⟩
      exact hlength h

theorem signatureOver_deferred_eq_error {e : BlockError} :
    (deferred signer).signatureOver message = .error e ↔
      ∃ reason, signer.Fails message reason ∧ e = .signing reason := by
  rw [signatureOver]
  simp only [Signer.Fails]
  cases signer.sign message with
  | error reason => simp [eq_comm]
  | ok made =>
    by_cases hlength : made.length = signer.signatureLength
    · simp [hlength]
    · simp only [hlength, if_false, Except.error.injEq, Except.ok.injEq, reduceCtorEq, false_or]
      constructor
      · rintro rfl
        exact ⟨_, ⟨made, rfl, hlength, rfl⟩, rfl⟩
      · rintro ⟨reason, ⟨_, rfl, _, rfl⟩, rfl⟩
        rfl

def settle (message : Bytes) : SignatureSource → SignatureSource
  | precomputed signature => precomputed signature
  | deferred signer =>
    match signer.sign message with
    | .ok signature => precomputed signature
    | .error _ => deferred signer

theorem settle_of_signatureOver {source : SignatureSource} {signature : Bytes}
    (h : source.signatureOver message = .ok signature) :
    source.settle message = precomputed signature := by
  cases source with
  | precomputed known =>
    obtain rfl := Except.ok.inj h
    rfl
  | deferred signer =>
    obtain ⟨hsign, _⟩ := signatureOver_deferred_eq_ok.mp h
    rw [settle, hsign]

end SignatureSource

namespace Wrapper

def signer? : Wrapper SignatureSource → Option Signer
  | authorSignature _ (.deferred signer) => some signer
  | authorSignature _ (.precomputed _) | previousBlock _ | inContext _ | updateContext => none

variable {around : Wrapper SignatureSource}

theorem exists_sign (h : around.signer? = none) :
    ∃ signed, ∀ message, around.sign message = .ok signed := by
  cases around with
  | authorSignature author source =>
    cases source with
    | precomputed signature => exact ⟨authorSignature author signature, fun _ => rfl⟩
    | deferred signer => cases h
  | previousBlock hash => exact ⟨previousBlock hash, fun _ => rfl⟩
  | inContext link => exact ⟨inContext link, fun _ => rfl⟩
  | updateContext => exact ⟨updateContext, fun _ => rfl⟩

theorem eq_of_signer? {signer : Signer} (h : around.signer? = some signer) :
    ∃ author, around = authorSignature author (.deferred signer) := by
  cases around with
  | authorSignature author source =>
    cases source with
    | precomputed signature => cases h
    | deferred found =>
      obtain rfl := Option.some.inj h
      exact ⟨author, rfl⟩
  | previousBlock hash => cases h
  | inContext link => cases h
  | updateContext => cases h

theorem settle_of_sign {message : Bytes} {signed : Wrapper Bytes}
    (h : around.sign message = .ok signed) :
    around.map (·.settle message) = signed.map .precomputed := by
  cases around with
  | authorSignature author source =>
    obtain ⟨signature, hsignature, rfl⟩ := map_eq_ok.mp h
    simp only [map, SignatureSource.settle_of_signatureOver hsignature]
  | previousBlock hash =>
    obtain rfl := Except.ok.inj h
    rfl
  | inContext link =>
    obtain rfl := Except.ok.inj h
    rfl
  | updateContext =>
    obtain rfl := Except.ok.inj h
    rfl

theorem signer?_map_precomputed (known : Wrapper Bytes) :
    (known.map .precomputed).signer? = none := by
  cases known <;> rfl

end Wrapper

/-- A signature still to be made: who makes it, and the draft it covers. -/
structure SigningRequest where
  signer : Signer
  inner : Draft

namespace SigningRequest

/-- The signer signs what the draft inside writes on its own. -/
def Granted (r : SigningRequest) : Prop :=
  ∃ message signature, r.inner.encode = .ok message ∧ r.signer.Signs message signature

/-- The draft inside can be written, and the signer fails on what it writes. -/
def Refused (r : SigningRequest) (reason : String) : Prop :=
  ∃ message, r.inner.encode = .ok message ∧ r.signer.Fails message reason

end SigningRequest

namespace Draft

def requests : Draft → List SigningRequest
  | terminal _ => []
  | wrapped around inner =>
    match around.signer? with
    | none => inner.requests
    | some signer => inner.requests ++ [⟨signer, inner⟩]

/-- The draft with its signatures made beforehand: each signer gives way to its signature over what
the draft inside writes. -/
def presigned : Draft → Draft
  | terminal content => terminal content
  | wrapped around inner =>
    match inner.encode with
    | .ok message => wrapped (around.map (·.settle message)) inner.presigned
    | .error _ => wrapped around inner.presigned

variable {around : Wrapper SignatureSource} {inner : Draft}

theorem encode_wrapped_of_known (h : around.signer? = none) :
    ∃ f : Bytes → Bytes, (wrapped around inner).encode = inner.encode.map f := by
  obtain ⟨signed, hsigned⟩ := Wrapper.exists_sign h
  refine ⟨fun message => signed.header List.length ++ (message ++ signed.ending), ?_⟩
  rw [encode_wrapped]
  simp only [hsigned]
  cases inner.encode <;> rfl

theorem encode_wrapped_of_signer {signer : Signer} (h : around.signer? = some signer) :
    ∃ f : Bytes → Bytes → Bytes, (wrapped around inner).encode = inner.encode >>= fun message =>
      ((SignatureSource.deferred signer).signatureOver message).map (f message) := by
  obtain ⟨author, rfl⟩ := Wrapper.eq_of_signer? h
  refine ⟨fun message signature => (Wrapper.authorSignature author signature).header List.length ++
    (message ++ signature), ?_⟩
  rw [encode_wrapped]
  congr 1
  funext message
  rw [Wrapper.sign]
  cases (SignatureSource.deferred signer).signatureOver message <;> rfl

theorem exists_encode_iff (draft : Draft) :
    (∃ bytes, draft.encode = .ok bytes) ↔ ∀ r ∈ draft.requests, r.Granted := by
  induction draft with
  | terminal content => exact ⟨fun _ r hr => (List.not_mem_nil hr).elim, fun _ => ⟨_, rfl⟩⟩
  | wrapped around inner ih =>
    rw [requests]
    cases hsigner : around.signer? with
    | none =>
      obtain ⟨f, hencode⟩ := @encode_wrapped_of_known _ inner hsigner
      simp only [hencode, map_eq_ok, ← ih]
      exact ⟨fun ⟨_, message, h, _⟩ => ⟨message, h⟩, fun ⟨message, h⟩ => ⟨_, message, h, rfl⟩⟩
    | some signer =>
      obtain ⟨f, hencode⟩ := @encode_wrapped_of_signer _ inner _ hsigner
      rw [List.forall_mem_append, ← ih, List.forall_mem_singleton, hencode]
      simp only [bind_eq_ok, map_eq_ok, SignatureSource.signatureOver_deferred_eq_ok,
        SigningRequest.Granted]
      constructor
      · rintro ⟨_, message, hmessage, signature, hsigns, _⟩
        exact ⟨⟨message, hmessage⟩, message, signature, hmessage, hsigns⟩
      · rintro ⟨_, message, signature, hmessage, hsigns⟩
        exact ⟨_, message, hmessage, signature, hsigns, rfl⟩

/-- A draft that cannot be written fails as the innermost signer that fails. -/
theorem encode_eq_error {draft : Draft} {e : BlockError} :
    draft.encode = .error e ↔
      ∃ before r after, draft.requests = before ++ r :: after ∧ (∀ s ∈ before, s.Granted) ∧
        ∃ reason, r.Refused reason ∧ e = .signing reason := by
  induction draft with
  | terminal content => simp [encode, appendTo, requests]
  | wrapped around inner ih =>
    rw [requests]
    cases hsigner : around.signer? with
    | none =>
      obtain ⟨f, hencode⟩ := @encode_wrapped_of_known _ inner hsigner
      rw [hencode, map_eq_error, ih]
    | some signer =>
      obtain ⟨f, hencode⟩ := @encode_wrapped_of_signer _ inner _ hsigner
      rw [exists_split_concat, ← ih, hencode, bind_eq_error]
      refine or_congr_right ?_
      simp only [map_eq_error, SignatureSource.signatureOver_deferred_eq_error]
      constructor
      · rintro ⟨message, hmessage, reason, hfails, rfl⟩
        -- the signer is asked only after all signatures inside are made
        exact ⟨inner.exists_encode_iff.mp ⟨message, hmessage⟩, reason, ⟨message, hmessage, hfails⟩,
          rfl⟩
      · rintro ⟨_, reason, ⟨message, hmessage, hfails⟩, rfl⟩
        exact ⟨message, hmessage, reason, hfails, rfl⟩

theorem encode_presigned {draft : Draft} {bytes : Bytes} (h : draft.encode = .ok bytes) :
    draft.presigned.encode = .ok bytes ∧ draft.presigned.requests = [] := by
  induction draft generalizing bytes with
  | terminal content => exact ⟨h, rfl⟩
  | wrapped around inner ih =>
    obtain ⟨message, signed, hmessage, hsigned, rfl⟩ := encode_wrapped_eq_ok.mp h
    obtain ⟨hinner, hknown⟩ := ih hmessage
    simp only [presigned, hmessage, Wrapper.settle_of_sign hsigned, requests,
      Wrapper.signer?_map_precomputed]
    exact ⟨encode_wrapped_eq_ok.mpr ⟨_, _, hinner, Wrapper.sign_map_precomputed _ _, rfl⟩, hknown⟩

/-- Whatever the buffer holds, a draft can be written after it just when each signer, from the
innermost layer outwards, signs the encoding of the draft inside it with as many bytes as announced.
What is then added to the buffer is the draft's own encoding, and the one it has with all signatures
made beforehand. Otherwise the innermost signer that fails says why. -/
theorem signing_while_writing (draft : Draft) (buffer : Bytes) :
    ((∃ out, draft.appendTo buffer = .ok out) ↔ ∀ r ∈ draft.requests, r.Granted) ∧
    (∀ out, draft.appendTo buffer = .ok out ↔
      ∃ bytes, draft.encode = .ok bytes ∧ out = buffer ++ bytes) ∧
    (∀ bytes, draft.encode = .ok bytes →
      draft.presigned.encode = .ok bytes ∧ draft.presigned.requests = []) ∧
    ∀ e, draft.appendTo buffer = .error e ↔
      ∃ before r after, draft.requests = before ++ r :: after ∧ (∀ s ∈ before, s.Granted) ∧
        ∃ reason, r.Refused reason ∧ e = .signing reason := by
  have hwritten : ∀ out, draft.appendTo buffer = .ok out ↔
      ∃ bytes, draft.encode = .ok bytes ∧ out = buffer ++ bytes := by
    intro out
    rw [appendTo_eq, map_eq_ok]
    simp only [eq_comm]
  refine ⟨?_, hwritten, fun bytes => encode_presigned, fun e => ?_⟩
  · rw [← exists_encode_iff]
    simp only [hwritten]
    exact ⟨fun ⟨_, bytes, h, _⟩ => ⟨bytes, h⟩, fun ⟨bytes, h⟩ => ⟨_, bytes, h, rfl⟩⟩
  · rw [appendTo_eq, map_eq_error, encode_eq_error]

/-- An acknowledgement signed by `signer`, and again with the number of bytes signed. -/
def countersigned (signer : Signer) : Draft :=
  .wrapped (.authorSignature [8] (.deferred ⟨1, fun message => .ok [UInt8.ofNat message.length]⟩))
    (.wrapped .updateContext
      (.wrapped (.authorSignature [7] (.deferred signer)) (.terminal (.ack 300 []))))

/-- Written after two other bytes with a signer that keeps its word, and with one that does not. -/
theorem signing_while_writing_countersigned :
    let bytes := [83, 1, 8, 1, 85, 83, 1, 7, 2, 75, 172, 2, 0, 75, 172, 11]
    (countersigned ⟨2, fun message => .ok (message.take 2)⟩).appendTo [1, 2] =
      .ok ([1, 2] ++ bytes) ∧
    (countersigned ⟨2, fun message => .ok (message.take 2)⟩).presigned.encode = .ok bytes ∧
    (countersigned ⟨3, fun message => .ok (message.take 2)⟩).appendTo [1, 2] =
      .error (.signing "signer produced 2 bytes, announced 3") := by
  intro bytes
  have hencode : (countersigned ⟨2, fun message => .ok (message.take 2)⟩).encode = .ok bytes := by
    cbv
  obtain ⟨_, hwritten, hpresigned, _⟩ :=
    signing_while_writing (countersigned ⟨2, fun message => .ok (message.take 2)⟩) [1, 2]
  obtain ⟨_, _, _, hfailed⟩ :=
    signing_while_writing (countersigned ⟨3, fun message => .ok (message.take 2)⟩) [1, 2]
  refine ⟨(hwritten _).mpr ⟨bytes, hencode, rfl⟩, (hpresigned bytes hencode).1, ?_⟩
  refine (hfailed _).mpr ⟨[], _, _, rfl, fun s hs => (List.not_mem_nil hs).elim, _, ?_, rfl⟩
  exact ⟨[75, 172, 2, 0], by cbv, .inr ⟨[75, 172], rfl, by decide, by decide⟩⟩

end Draft

end TamperEvident
