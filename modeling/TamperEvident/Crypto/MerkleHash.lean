import TamperEvident.Crypto.Blake3

/-! Hashing of the audit tree's nodes. Leaves and inner nodes are hashed under
different first bytes, so neither can pass for the other. -/

namespace TamperEvident

structure Digest where
  bytes : Bytes
  length_eq : bytes.length = 32
  deriving DecidableEq, Repr

namespace Digest

def ofBytes? (bytes : Bytes) : Option Digest :=
  if h : bytes.length = 32 then some ⟨bytes, h⟩ else none

def blake3 (data : Bytes) : Digest := ⟨Blake3.hash data, Blake3.length_digestWith _ _ _⟩

def leaf (value : Bytes) : Digest := blake3 (0 :: value)

def combine (left right : Digest) : Digest := blake3 (1 :: (left.bytes ++ right.bytes))

end Digest

end TamperEvident
