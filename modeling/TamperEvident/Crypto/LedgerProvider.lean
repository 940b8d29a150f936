import TamperEvident.Crypto.Algorithm
import TamperEvident.Crypto.Blake3
import TamperEvident.Crypto.Ed25519

/-! The provider bound to one ledger. Its keyed hash is keyed with the ledger
id, so digests made for one ledger mean nothing in another. -/

namespace TamperEvident

namespace Algorithm

def blake3Name : String := "blake3"

def ledgerKeyedName : String := "blake3(ledgerId)"

def ed25519Name : String := "ed25519"

def blake3 : HashAlgorithm := ⟨blake3Name, 32, Blake3.hash⟩

def ledgerKeyed (ledgerId : Bytes) : HashAlgorithm :=
  ⟨ledgerKeyedName, 32, Blake3.keyedHash ledgerId⟩

/-- The key pair of a 32-byte seed, which is its secret key. -/
def ed25519KeyPair (seed : Bytes) : KeyPair := ⟨Ed25519.publicKey seed, seed⟩

def ed25519 : SignatureAlgorithm where
  name := ed25519Name
  publicKeyLength := 32
  secretKeyLength := 32
  signatureLength := 64
  keyPairFrom entropy :=
    ed25519KeyPair (Bytes.littleEndian 32 (Bytes.ofLittleEndian (entropy.take 32)))
  sign secretKey message :=
    if secretKey.length = 32 then .ok (Ed25519.sign secretKey message)
    else .error (.invalidLength "secret key" 32 secretKey.length)
  verify := Ed25519.verify

end Algorithm

/-- A ledger id is 32 bytes. -/
structure LedgerProvider where
  ledgerId : Bytes
  deriving DecidableEq, Repr

namespace LedgerProvider

def ledgerIdOf (publicKey : Bytes) : Bytes := Blake3.deriveKey "tel 2024 ledger-id v1" publicKey

def ofPublicKey (publicKey : Bytes) : LedgerProvider := ⟨ledgerIdOf publicKey⟩

def provider (p : LedgerProvider) : CryptoProvider where
  hashNamed name :=
    if name = Algorithm.blake3Name then .ok Algorithm.blake3
    else if name = Algorithm.ledgerKeyedName then .ok (Algorithm.ledgerKeyed p.ledgerId)
    else .error (.unknownAlgorithm name)
  signatureNamed name :=
    if name = Algorithm.ed25519Name then .ok Algorithm.ed25519
    else .error (.unknownAlgorithm name)

def describe (p : LedgerProvider) : String :=
  "LedgerCryptoProvider(" ++ Hex.encode (p.ledgerId.take 8) ++ "...)"

def describeKeyed : String := "Blake3Keyed(<redacted>)"

end LedgerProvider

end TamperEvident
