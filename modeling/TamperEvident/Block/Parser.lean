import TamperEvident.Block.Basic
import TamperEvident.Block.Window

/-! Reading blocks. A layer is read from its window alone, and the bytes it
leaves are the whole window of the block inside it, so an inner block is read
exactly as it would be on its own. -/

namespace TamperEvident

/-- One layer off a window: a terminal block, which takes it all, or a wrapper
and the window of the block inside. -/
inductive Layer where
  | terminal (content : Terminal)
  | wrapper (wrapper : Wrapper Bytes) (inner : Window)
  deriving DecidableEq, Repr

namespace Window

def layerOf (w : Window) : Kind → Except BlockError Layer
  | .policy => do
    let (version, rest) ← w.varint
    return .terminal (.policy (UInt64.ofNat version) rest.bytes)
  | .data => return .terminal (.data w.bytes)
  | .reference => do
    let hashes ← w.sizedAll
    return .terminal (.reference hashes)
  | .addAuthors => do
    let keys ← w.sizedAll
    return .terminal (.addAuthors keys)
  | .ack => do
    let (index, rest) ← w.varint
    let (link, rest) ← rest.sized
    if rest.bytes.length = 0 then return .terminal (.ack (UInt64.ofNat index) link)
    else throw (.trailing rest.bytes.length)
  | .authorSignature => do
    let (author, rest) ← w.sized
    let (size, rest) ← rest.varint
    let (signature, inner) ← rest.fieldAtEnd size
    return .wrapper (.authorSignature author signature) inner
  | .previousBlock => do
    let (hash, inner) ← w.sized
    return .wrapper (.previousBlock hash) inner
  | .inContext => do
    let (link, inner) ← w.sized
    return .wrapper (.inContext link) inner
  | .updateContext => return .wrapper .updateContext w

def layer (w : Window) : Except BlockError Layer := do
  let (tag, rest) ← w.varint
  match Kind.ofTag? tag with
  | none => throw (.unknownKind tag)
  | some kind => rest.layerOf kind

end Window

namespace Block

/-- Nesting allowed where nothing else is said, the outermost block included. -/
def defaultLimit : Nat := 8

/-- The block that fills a window, with room for `room` layers of `limit`. -/
def parseWindow (limit : Nat) : (room : Nat) → Window → Except BlockError Block
  | 0, _ => .error (.tooDeep limit)
  | room + 1, w =>
    match w.layer with
    | .error e => .error e
    | .ok (.terminal content) => .ok (terminal w.bytes content)
    | .ok (.wrapper wrapper inner) =>
      (parseWindow limit room inner).map (wrapped w.bytes wrapper)

def parse (limit : Nat) (raw : Bytes) : Except BlockError Block :=
  parseWindow limit limit ⟨0, raw⟩

end Block

end TamperEvident
