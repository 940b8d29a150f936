/-! JSON documents as written: members in order, repeated names kept, numerals
as their digits. What a document means is decided by whoever reads it. -/

namespace TamperEvident

structure Numeral where
  negative : Bool
  integer : List Char
  fraction : Option (List Char)
  /-- Whether the exponent is negative, and its digits. -/
  exponent : Option (Bool × List Char)
  deriving DecidableEq, Repr

namespace Json

/-- The text of a string literal; nothing when an escape names half of a
surrogate pair. -/
abbrev Literal := Option String

end Json

inductive Json where
  | null
  | bool (value : Bool)
  | number (numeral : Numeral)
  | string (literal : Json.Literal)
  | array (items : List Json)
  | object (members : List (Json.Literal × Json))
  deriving Repr

end TamperEvident
