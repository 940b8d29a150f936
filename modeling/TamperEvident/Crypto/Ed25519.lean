import TamperEvident.Crypto.Edwards25519
import TamperEvident.Crypto.Sha512

/-! Ed25519 signatures. Verification takes any public key that names a point,
of small order too, but only a reduced scalar and the exact point bytes. -/

namespace TamperEvident.Ed25519

open Edwards25519

def scalarOf (digest : Bytes) : Nat := Bytes.ofLittleEndian digest % order

/-- The secret scalar of a seed: a multiple of eight with its top bit at 254. -/
def clamp (bytes : Bytes) : Nat :=
  let n := Bytes.ofLittleEndian bytes % 2 ^ 254
  n - n % 8 + 2 ^ 254

def scaleBase (n : Nat) : Point := base.scale 255 n

def publicKey (seed : Bytes) : Bytes :=
  (scaleBase (clamp ((Sha512.hash seed).take 32))).compress

/-- A seed is 32 bytes. -/
def sign (seed message : Bytes) : Bytes :=
  let digest := Sha512.hash seed
  let secret := clamp (digest.take 32)
  let nonce := scalarOf (Sha512.hash (digest.drop 32 ++ message))
  let point := (scaleBase nonce).compress
  let key := (scaleBase secret).compress
  let challenge := scalarOf (Sha512.hash (point ++ key ++ message))
  point ++ Bytes.littleEndian 32 ((nonce + challenge * secret) % order)

def verify (key message signature : Bytes) : Bool :=
  if key.length = 32 ∧ signature.length = 64 then
    let point := signature.take 32
    let scalar := Bytes.ofLittleEndian (signature.drop 32)
    match Point.decompress key with
    | none => false
    | some a =>
      let challenge := scalarOf (Sha512.hash (point ++ key ++ message))
      decide (scalar < order) &&
        ((scaleBase scalar).add (a.neg.scale 255 challenge)).compress == point
  else false

end TamperEvident.Ed25519
