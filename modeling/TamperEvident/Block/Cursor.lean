import TamperEvident.Block.Parser

/-! Reading a block in place. All layers share one buffer, and a cursor keeps both ends of what is
left of a block in it: fields move the front end on, a signature moves the back end in, and what
stands between the ends when the fields of a wrapper are read is the block inside. -/

namespace TamperEvident

/-- What is left of a block in a buffer that may go on after it. -/
structure Cursor (buffer : Bytes) where
  start : Nat
  stop : Nat
  start_le : start ≤ stop
  stop_le : stop ≤ buffer.length

namespace Cursor

variable {buffer : Bytes}

def whole (buffer : Bytes) : Cursor buffer := ⟨0, buffer.length, Nat.zero_le _, Nat.le_refl _⟩

def left (c : Cursor buffer) : Bytes := buffer.extract c.start c.stop

def remaining (c : Cursor buffer) : Nat := c.stop - c.start

theorem length_left (c : Cursor buffer) : c.left.length = c.remaining := by
  have hstop := c.stop_le
  rw [left, List.extract, List.length_take, List.length_drop, remaining]
  omega

def advance (c : Cursor buffer) (n : Nat) (h : n ≤ c.remaining) : Cursor buffer where
  start := c.start + n
  stop := c.stop
  start_le := by
    have hstart := c.start_le
    unfold remaining at h
    omega
  stop_le := c.stop_le

def retreat (c : Cursor buffer) (n : Nat) (h : n ≤ c.remaining) : Cursor buffer where
  start := c.start
  stop := c.stop - n
  start_le := by
    have hstart := c.start_le
    unfold remaining at h
    omega
  stop_le := Nat.le_trans (Nat.sub_le _ _) c.stop_le

theorem remaining_advance {c : Cursor buffer} {n : Nat} (h : n ≤ c.remaining) :
    (c.advance n h).remaining = c.remaining - n := Nat.sub_add_eq _ _ _

def varint (c : Cursor buffer) : Except BlockError (Nat × Cursor buffer) :=
  match h : Varint.decode 64 c.left with
  | .error cause => .error (.varint c.start cause)
  | .ok (value, used) =>
    .ok (value, c.advance used (c.length_left ▸ (Varint.decode_used h).2))

def field (c : Cursor buffer) (size : Nat) : Except BlockError (Bytes × Cursor buffer) :=
  if h : size ≤ c.remaining then
    .ok (buffer.extract c.start (c.start + size), c.advance size h)
  else .error (.overrun size c.remaining)

def fieldAtEnd (c : Cursor buffer) (size : Nat) : Except BlockError (Bytes × Cursor buffer) :=
  if h : size ≤ c.remaining then
    .ok (buffer.extract (c.stop - size) c.stop, c.retreat size h)
  else .error (.overrun size c.remaining)

def sized (c : Cursor buffer) : Except BlockError (Bytes × Cursor buffer) :=
  match c.varint with
  | .error e => .error e
  | .ok (size, rest) => rest.field size

theorem varint_shorter {c rest : Cursor buffer} {value : Nat} (h : c.varint = .ok (value, rest)) :
    rest.remaining < c.remaining := by
  unfold varint at h
  split at h
  · simp at h
  · rename_i value' used hd
    have hused := Varint.decode_used hd
    rw [length_left] at hused
    simp only [Except.ok.injEq, Prod.mk.injEq] at h
    rw [← h.2, remaining_advance]
    omega

theorem sized_shorter {c rest : Cursor buffer} {b : Bytes} (h : c.sized = .ok (b, rest)) :
    rest.remaining < c.remaining := by
  unfold sized at h
  split at h
  · simp at h
  · rename_i size middle hv
    have hmiddle := varint_shorter hv
    unfold field at h
    split at h
    · simp only [Except.ok.injEq, Prod.mk.injEq] at h
      rw [← h.2, remaining_advance]
      omega
    · simp at h

def sizedAll (c : Cursor buffer) : Except BlockError (List Bytes) :=
  if c.start < c.stop then
    match h : c.sized with
    | .error e => .error e
    | .ok (b, rest) =>
      have := sized_shorter h
      rest.sizedAll.map (b :: ·)
  else .ok []
termination_by c.remaining

/-- What follows the tag of a block with the bytes `raw`; `inner` reads the block inside. -/
def readAs (raw : Bytes) (inner : Cursor buffer → Except BlockError Block) (c : Cursor buffer) :
    Kind → Except BlockError Block
  | .policy => do
    let (version, rest) ← c.varint
    return .terminal raw (.policy (UInt64.ofNat version) rest.left)
  | .data => return .terminal raw (.data c.left)
  | .reference => do
    let hashes ← c.sizedAll
    return .terminal raw (.reference hashes)
  | .addAuthors => do
    let keys ← c.sizedAll
    return .terminal raw (.addAuthors keys)
  | .ack => do
    let (index, rest) ← c.varint
    let (link, rest) ← rest.sized
    if rest.remaining = 0 then return .terminal raw (.ack (UInt64.ofNat index) link)
    else throw (.trailing rest.remaining)
  | .authorSignature => do
    let (author, rest) ← c.sized
    let (size, rest) ← rest.varint
    let (signature, rest) ← rest.fieldAtEnd size
    let block ← inner rest
    return .wrapped raw (.authorSignature author signature) block
  | .previousBlock => do
    let (hash, rest) ← c.sized
    let block ← inner rest
    return .wrapped raw (.previousBlock hash) block
  | .inContext => do
    let (link, rest) ← c.sized
    let block ← inner rest
    return .wrapped raw (.inContext link) block
  | .updateContext => do
    let block ← inner c
    return .wrapped raw .updateContext block

def read (limit : Nat) : (room : Nat) → Cursor buffer → Except BlockError Block
  | 0, _ => .error (.tooDeep limit)
  | room + 1, c => do
    let (tag, rest) ← c.varint
    match Kind.ofTag? tag with
    | none => throw (.unknownKind tag)
    | some kind => rest.readAs c.left (read limit room) kind

end Cursor

end TamperEvident
