import TamperEvident.Crypto.LedgerProvider
import TamperEvident.Ledger.Error
import TamperEvident.Toml

/-! Settings of validators and producers. The algorithms named here go into new
policies; a ledger that exists uses those of its own policy. -/

namespace TamperEvident

structure Config where
  maxBlockDepth : Nat := Block.defaultLimit
  hashingAlgorithm : String := Algorithm.ledgerKeyedName
  signingAlgorithm : String := Algorithm.ed25519Name
  deriving DecidableEq, Repr

namespace Config

def fieldNames : List String := ["max_block_depth", "hashing_algorithm", "signing_algorithm"]

def validate (c : Config) : Except ConfigError Unit :=
  if c.maxBlockDepth = 0 then .error .zeroDepth else .ok ()

def given {α : Type} (read : Json → Option α) (default : α) : Option Json → Option α
  | none => some default
  | some j => read j

/-- Missing fields take their defaults; others are not allowed. -/
def ofJson (j : Json) : Option Config := do
  let [depth, hashing, signing] ← j.fieldsOf fieldNames .refused | none
  let default : Config := {}
  return {
    maxBlockDepth := ← given (Json.nat? 64) default.maxBlockDepth depth
    hashingAlgorithm := ← given Json.string? default.hashingAlgorithm hashing
    signingAlgorithm := ← given Json.string? default.signingAlgorithm signing }

def toJson (c : Config) : Json.Value :=
  .object (fieldNames.zip
    [.ofNat c.maxBlockDepth, .string c.hashingAlgorithm, .string c.signingAlgorithm])

def withSetting (c : Config) : String × Toml.Setting → Option Config
  | ("max_block_depth", .integer depth) =>
    if 0 ≤ depth then some { c with maxBlockDepth := depth.toNat } else none
  | ("hashing_algorithm", .text name) => some { c with hashingAlgorithm := name }
  | ("signing_algorithm", .text name) => some { c with signingAlgorithm := name }
  | _ => none

/-- Changes a configuration by settings whose names are among `free`, each of
them once. -/
def withSettings (free : List String) (c : Config) :
    List (String × Toml.Setting) → Option Config
  | [] => some c
  | s :: rest => do
    guard (s.1 ∈ free)
    withSettings (free.erase s.1) (← c.withSetting s) rest

def ofSettings (settings : List (String × Toml.Setting)) : Option Config :=
  withSettings fieldNames {} settings

def ofToml (text : String) : Except ConfigError Config :=
  match (Toml.parse text).bind ofSettings with
  | none => .error .unreadable
  | some c => c.validate.map fun _ => c

end Config

end TamperEvident
