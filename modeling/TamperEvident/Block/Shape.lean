import TamperEvident.Block.Kind
import TamperEvident.Table
import TamperEvident.Varint

/-! The nesting shape of a block, outermost kind first. A policy lists the
shapes it allows as concatenated tags. -/

namespace TamperEvident

abbrev Shape := List Kind

abbrev ShapeSet := KeySet Shape

namespace Shape

inductive Error where
  | varint (cause : Varint.Error)
  | unknownKind (tag : Nat)
  deriving DecidableEq, Repr

def Error.message : Error → String
  | .varint cause => cause.message
  | .unknownKind tag => "unknown block type tag: " ++ toString tag

def toBytes (shape : Shape) : Bytes := shape.flatMap fun kind => Varint.encode kind.tag

def ofBytes (bytes : Bytes) : Except Error Shape :=
  if bytes.isEmpty then .ok []
  else
    match h : Varint.decode 64 bytes with
    | .error cause => .error (.varint cause)
    | .ok (tag, used) =>
      match Kind.ofTag? tag with
      | none => .error (.unknownKind tag)
      | some kind =>
        have := Varint.decode_used h
        (ofBytes (bytes.drop used)).map (kind :: ·)
termination_by bytes.length
decreasing_by
  simp only [List.length_drop]
  omega

def display (shape : Shape) : String := ">".intercalate (shape.map Kind.name)

end Shape

end TamperEvident
