import TamperEvident.Hex
import TamperEvident.Json.Value

/-! Reading the parts of a record out of a document. A record is written as an
object, and read from an object or from an array of its fields in order. -/

namespace TamperEvident.Json

/-- What a record's reader does with a name that is no field. -/
inductive Extra where
  | ignored
  | refused
  deriving DecidableEq, Repr

/-- The documents given for `fields` among members, in the order of `fields`.
A field may be given once. -/
def membersFor (fields : List String) (extra : Extra) :
    List (Literal × Json) → Option (List (Option Json))
  | [] => some (fields.map fun _ => none)
  | (name, item) :: rest => do
    let name ← name
    let found ← membersFor fields extra rest
    match fields.idxOf? name with
    | none => if extra = .ignored then some found else none
    | some i =>
      match found[i]? with
      | some none => return found.set i (some item)
      | _ => none

def fieldsOf (fields : List String) (extra : Extra) : Json → Option (List (Option Json))
  | .object members => membersFor fields extra members
  | .array items =>
    if items.length ≤ fields.length then
      some (items.map some ++ List.replicate (fields.length - items.length) none)
    else none
  | _ => none

def string? : Json → Option String
  | .string literal => literal
  | _ => none

def bool? : Json → Option Bool
  | .bool value => some value
  | _ => none

def nat? (bits : Nat) : Json → Option Nat
  | .number numeral =>
    match numberOf numeral with
    | some (.natural value) => if value.toNat < 2 ^ bits then some value.toNat else none
    | _ => none
  | _ => none

def word? (j : Json) : Option UInt64 := (j.nat? 64).map UInt64.ofNat

def list? {α : Type} (read : Json → Option α) : Json → Option (List α)
  | .array items => items.mapM read
  | _ => none

def hex? (j : Json) : Option Bytes := do (Hex.decode (← j.string?)).toOption

/-- A choice written with its name and one document. -/
def choice? : Json → Option (String × Json)
  | .object [(some name, item)] => some (name, item)
  | _ => none

/-- A choice that carries nothing: its name alone, or its name with `null`. -/
def plainChoice? : Json → Option String
  | .string literal => literal
  | .object [(name, .null)] => name
  | _ => none

end TamperEvident.Json
