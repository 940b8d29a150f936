import TamperEvident.Block.Parser

/-! Blocks to be written. The same fields give the same bytes: fields stand in
wire order with minimal lengths and no padding. A signature is either known or
made from the encoding of the block it covers. -/

namespace TamperEvident

/-- Makes signatures of one length, so that the length can be written first. -/
structure Signer where
  signatureLength : Nat
  sign : Bytes → Except String Bytes

inductive SignatureSource where
  | precomputed (signature : Bytes)
  | deferred (signer : Signer)

inductive Draft where
  | terminal (content : Terminal)
  | wrapped (wrapper : Wrapper SignatureSource) (inner : Draft)

def sizedField (field : Bytes) : Bytes := Varint.encode field.length ++ field

namespace SignatureSource

def length : SignatureSource → Nat
  | precomputed signature => signature.length
  | deferred signer => signer.signatureLength

/-- The signature over `message`, which must have the length announced. -/
def signatureOver (message : Bytes) : SignatureSource → Except BlockError Bytes
  | precomputed signature => .ok signature
  | deferred signer =>
    match signer.sign message with
    | .error reason => .error (.signing reason)
    | .ok signature =>
      if signature.length = signer.signatureLength then .ok signature
      else
        .error (.signing ("signer produced " ++ toString signature.length ++
          " bytes, announced " ++ toString signer.signatureLength))

end SignatureSource

namespace Terminal

def encode (content : Terminal) : Bytes :=
  Varint.encode content.kind.tag ++
    match content with
    | policy version payload => Varint.encode version.toNat ++ payload
    | data payload => payload
    | reference hashes => hashes.flatMap sizedField
    | addAuthors keys => keys.flatMap sizedField
    | ack index link => Varint.encode index.toNat ++ sizedField link

end Terminal

namespace Wrapper

/-- What a wrapper writes before the block inside it, when its signature is
`length` bytes long. -/
def header {σ : Type} (length : σ → Nat) (wrapper : Wrapper σ) : Bytes :=
  Varint.encode wrapper.kind.tag ++
    match wrapper with
    | authorSignature author signature => sizedField author ++ Varint.encode (length signature)
    | previousBlock hash => sizedField hash
    | inContext link => sizedField link
    | updateContext => []

def map {σ τ : Type} (f : σ → τ) : Wrapper σ → Wrapper τ
  | authorSignature author signature => authorSignature author (f signature)
  | previousBlock hash => previousBlock hash
  | inContext link => inContext link
  | updateContext => updateContext

def trailer (inner : Bytes) : Wrapper SignatureSource → Except BlockError Bytes
  | authorSignature _ source => source.signatureOver inner
  | previousBlock _ | inContext _ | updateContext => .ok []

end Wrapper

namespace Draft

def kind : Draft → Kind
  | terminal content => content.kind
  | wrapped wrapper _ => wrapper.kind

/-- Writes a draft at the end of a buffer. A signature covers what the inner
draft has added since the header was written. -/
def appendTo (buffer : Bytes) : Draft → Except BlockError Bytes
  | terminal content => .ok (buffer ++ content.encode)
  | wrapped wrapper inner => do
    let start := buffer ++ wrapper.header SignatureSource.length
    let body ← inner.appendTo start
    let trailer ← wrapper.trailer (body.drop start.length)
    return body ++ trailer

def encode (draft : Draft) : Except BlockError Bytes := draft.appendTo []

def build (limit : Nat) (draft : Draft) : Except BlockError Block := do
  let raw ← draft.encode
  Block.parse limit raw

end Draft

/-- A block's fields as a draft that carries the signatures it was read with. -/
def Block.toDraft : Block → Draft
  | terminal _ content => .terminal content
  | wrapped _ wrapper inner => .wrapped (wrapper.map .precomputed) inner.toDraft

end TamperEvident
