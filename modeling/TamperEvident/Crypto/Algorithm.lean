import TamperEvident.Hex

/-! Hash functions, signature schemes, and the providers that find them by
name. Everything built on them takes them as values, so nothing depends on one
digest length or one scheme. -/

namespace TamperEvident

inductive CryptoError where
  | unknownAlgorithm (name : String)
  | invalidLength (what : String) (expected actual : Nat)
  deriving DecidableEq, Repr

def CryptoError.message : CryptoError → String
  | .unknownAlgorithm name => "unknown algorithm: " ++ name
  | .invalidLength what expected actual =>
    "invalid " ++ what ++ " length: expected " ++ toString expected ++ ", got " ++ toString actual

structure HashAlgorithm where
  name : String
  outputLength : Nat
  hash : Bytes → Bytes

def HashAlgorithm.hashParts (h : HashAlgorithm) (parts : List Bytes) : Bytes :=
  h.hash parts.flatten

structure KeyPair where
  publicKey : Bytes
  secretKey : Bytes
  deriving DecidableEq, Repr

/-- A description that keeps the secret key out. -/
def KeyPair.describe (k : KeyPair) : String :=
  "KeyPair(public=" ++ Hex.encode k.publicKey ++ ", secret=<redacted>)"

/-- A malformed key or signature makes `verify` answer `false`, not fail. -/
structure SignatureAlgorithm where
  name : String
  publicKeyLength : Nat
  secretKeyLength : Nat
  signatureLength : Nat
  keyPairFrom : Bytes → KeyPair
  sign : (secretKey message : Bytes) → Except CryptoError Bytes
  verify : (publicKey message signature : Bytes) → Bool

structure CryptoProvider where
  hashNamed : String → Except CryptoError HashAlgorithm
  signatureNamed : String → Except CryptoError SignatureAlgorithm

end TamperEvident
