import TamperEvident.Block.Draft
import TamperEvident.Json.Data
import TamperEvident.Json.Parser
import TamperEvident.Json.Record

/-! The rules of one ledger, carried as a JSON document by its first block. -/

namespace TamperEvident

/-- Byte fields are written as hexadecimal text. -/
structure Policy where
  ledgerPublicKey : Bytes
  maxBlockSize : UInt64
  hashingAlgorithm : String
  signingAlgorithm : String
  /-- Allowed shapes as concatenated tags. -/
  allowedBlocks : List Bytes
  authorKeys : List Bytes
  /-- Means nothing to the ledger itself. -/
  applicationData : Json.Data

inductive PolicyError where
  | unsupportedVersion (version : UInt64)
  | malformedDocument
  | zeroMaxBlockSize
  | invalidAllowedBlock (index : Nat) (cause : BlockError)
  | duplicateAllowedBlock (shape : String)
  | missingApplicationData
  deriving DecidableEq, Repr

def PolicyError.message : PolicyError → String
  | .unsupportedVersion version => "unsupported policy version " ++ toString version.toNat
  | .malformedDocument => "malformed policy document"
  | .zeroMaxBlockSize => "max block size must be positive"
  | .invalidAllowedBlock index cause =>
    "allowed block entry " ++ toString index ++ " is malformed: " ++ cause.message
  | .duplicateAllowedBlock shape =>
    "allowed block sequence " ++ shape ++ " is listed more than once"
  | .missingApplicationData => "application data is missing"

namespace Policy

def fieldNames : List String :=
  ["ledger_public_key", "max_block_size", "hashing_algorithm", "signing_algorithm",
    "allowed_blocks", "author_keys", "application_data"]

/-- A policy from a document in which at most `room` containers are nested.
Every field is required and no other is allowed. -/
def ofJson (room : Nat) (j : Json) : Option Policy := do
  let [some publicKey, some maxSize, some hashing, some signing, some allowed, some authors,
    some application] ← j.fieldsOf fieldNames .refused | none
  return {
    ledgerPublicKey := ← publicKey.hex?
    maxBlockSize := ← maxSize.word?
    hashingAlgorithm := ← hashing.string?
    signingAlgorithm := ← signing.string?
    allowedBlocks := ← allowed.list? Json.hex?
    authorKeys := ← authors.list? Json.hex?
    applicationData := ← application.toData (room - 1) }

def hexList (items : List Bytes) : Json.Value := .array (items.map fun b => .string (Hex.encode b))

def toJson (p : Policy) : Json.Value :=
  .object (fieldNames.zip [.string (Hex.encode p.ledgerPublicKey), .ofWord p.maxBlockSize,
    .string p.hashingAlgorithm, .string p.signingAlgorithm, hexList p.allowedBlocks,
    hexList p.authorKeys, p.applicationData.value])

/-- The one payload version there is. -/
def version : UInt64 := 1

def payload (p : Policy) : Bytes := Bytes.ofText p.toJson.text

/-- Reads shapes from entry number `index` on; `seen` are those before it. -/
def shapesFrom (index : Nat) (seen : ShapeSet) : List Bytes → Except PolicyError ShapeSet
  | [] => .ok seen
  | raw :: rest =>
    match Shape.ofBytes raw with
    | .error cause => .error (.invalidAllowedBlock index (.shape cause))
    | .ok shape =>
      if shape ∈ seen then .error (.duplicateAllowedBlock shape.display)
      else shapesFrom (index + 1) (seen.insert shape) rest

def allowedShapes (p : Policy) : Except PolicyError ShapeSet := shapesFrom 0 ∅ p.allowedBlocks

def validate (p : Policy) : Except PolicyError Unit :=
  if p.maxBlockSize = 0 then .error .zeroMaxBlockSize
  else if p.applicationData.value.isNull then .error .missingApplicationData
  else p.allowedShapes.map fun _ => ()

def parseDocument (payload : Bytes) : Option Policy := do
  let text ← payload.toText?
  let document ← Json.parse text
  ofJson Json.nestingLimit document

def parse (version : UInt64) (payload : Bytes) : Except PolicyError Policy :=
  if version = Policy.version then
    match parseDocument payload with
    | none => .error .malformedDocument
    | some p => p.validate.map fun _ => p
  else .error (.unsupportedVersion version)

def toDraft (p : Policy) : Draft := .terminal (.policy version p.payload)

end Policy

end TamperEvident
