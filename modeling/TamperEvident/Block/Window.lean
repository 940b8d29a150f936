import TamperEvident.Block.Error

/-! The part of a buffer that is left for one block, with its place in the
buffer. Fields are taken from the front; a signature is taken from the end. -/

namespace TamperEvident

structure Window where
  offset : Nat
  bytes : Bytes
  deriving DecidableEq, Repr

namespace Window

def skip (w : Window) (n : Nat) : Window := ⟨w.offset + n, w.bytes.drop n⟩

def varint (w : Window) : Except BlockError (Nat × Window) :=
  match Varint.decode 64 w.bytes with
  | .error cause => .error (.varint w.offset cause)
  | .ok (value, used) => .ok (value, w.skip used)

def field (w : Window) (size : Nat) : Except BlockError (Bytes × Window) :=
  let found := w.bytes.take size
  if found.length = size then .ok (found, w.skip size) else .error (.overrun size found.length)

/-- The last `size` bytes, and the window before them. -/
def fieldAtEnd (w : Window) (size : Nat) : Except BlockError (Bytes × Window) :=
  if size ≤ w.bytes.length then
    .ok (w.bytes.drop (w.bytes.length - size),
      ⟨w.offset, w.bytes.take (w.bytes.length - size)⟩)
  else .error (.overrun size w.bytes.length)

def sized (w : Window) : Except BlockError (Bytes × Window) :=
  match w.varint with
  | .error e => .error e
  | .ok (size, rest) => rest.field size

theorem varint_shorter {w rest : Window} {value : Nat} (h : w.varint = .ok (value, rest)) :
    rest.bytes.length < w.bytes.length := by
  unfold varint at h
  split at h
  · simp at h
  · rename_i value' used hd
    have := Varint.decode_used hd
    simp only [Except.ok.injEq, Prod.mk.injEq] at h
    simp only [← h.2, skip, List.length_drop]
    omega

theorem field_le {w rest : Window} {size : Nat} {b : Bytes} (h : w.field size = .ok (b, rest)) :
    rest.bytes.length ≤ w.bytes.length := by
  simp only [field] at h
  split at h
  · simp only [Except.ok.injEq, Prod.mk.injEq] at h
    simp [← h.2, skip]
  · simp at h

theorem sized_shorter {w rest : Window} {b : Bytes} (h : w.sized = .ok (b, rest)) :
    rest.bytes.length < w.bytes.length := by
  unfold sized at h
  split at h
  · simp at h
  · rename_i size rest' hv
    have := varint_shorter hv
    have := field_le h
    omega

def sizedAll (w : Window) : Except BlockError (List Bytes) :=
  if w.bytes.isEmpty then .ok []
  else
    match h : w.sized with
    | .error e => .error e
    | .ok (b, rest) =>
      have := sized_shorter h
      rest.sizedAll.map (b :: ·)
termination_by w.bytes.length

end Window

end TamperEvident
