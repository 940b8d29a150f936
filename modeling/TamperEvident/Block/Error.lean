import TamperEvident.Block.Shape

/-! Why bytes are not a block, or a draft has no encoding. -/

namespace TamperEvident

inductive BlockError where
  | varint (offset : Nat) (cause : Varint.Error)
  | overrun (needed available : Nat)
  | unknownKind (tag : Nat)
  | tooDeep (limit : Nat)
  | trailing (count : Nat)
  | shape (cause : Shape.Error)
  | signing (reason : String)
  deriving DecidableEq, Repr

def BlockError.message : BlockError → String
  | .varint offset cause =>
    "invalid varint at offset " ++ toString offset ++ ": " ++ cause.message
  | .overrun needed available =>
    "field of " ++ toString needed ++ " bytes overruns buffer (" ++ toString available ++
      " bytes left)"
  | .unknownKind tag => "unknown block type tag: " ++ toString tag
  | .tooDeep limit => "nesting deeper than " ++ toString limit ++ " levels"
  | .trailing count => toString count ++ " trailing bytes after block"
  | .shape cause => "malformed block type sequence: " ++ cause.message
  | .signing reason => "signing failed: " ++ reason

end TamperEvident
