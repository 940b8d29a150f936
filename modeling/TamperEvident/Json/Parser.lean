import TamperEvident.Json.Literal

/-! Reading JSON text. -/

namespace TamperEvident.Json

def isBlank (c : Char) : Bool := c == ' ' || c == '\n' || c == '\t' || c == '\r'

def skipBlank (text : List Char) : List Char := text.dropWhile isBlank

def isDigit (c : Char) : Bool := '0' ≤ c && c ≤ '9'

def digits (text : List Char) : Option (List Char × List Char) :=
  let found := text.takeWhile isDigit
  if found.isEmpty then none else some (found, text.dropWhile isDigit)

def fraction : List Char → Option (Option (List Char) × List Char)
  | '.' :: rest => do
    let (found, rest) ← digits rest
    return (some found, rest)
  | rest => some (none, rest)

def exponentSign : List Char → Bool × List Char
  | '-' :: rest => (true, rest)
  | '+' :: rest => (false, rest)
  | rest => (false, rest)

def exponent : List Char → Option (Option (Bool × List Char) × List Char)
  | c :: rest =>
    if c = 'e' ∨ c = 'E' then do
      let (negative, rest) := exponentSign rest
      let (found, rest) ← digits rest
      return (some (negative, found), rest)
    else some (none, c :: rest)
  | [] => some (none, [])

/-- A numeral after its sign. A zero in front stands alone. -/
def numeral (negative : Bool) (text : List Char) : Option (Numeral × List Char) := do
  let (integer, rest) ← digits text
  guard (integer.head? ≠ some '0' ∨ integer.length = 1)
  let (fraction, rest) ← fraction rest
  let (exponent, rest) ← exponent rest
  return (⟨negative, integer, fraction, exponent⟩, rest)

mutual

/-- A document in front of `text`. Each container opened and each further item
takes one unit of `fuel`. -/
def value (fuel : Nat) (text : List Char) : Option (Json × List Char) :=
  match fuel with
  | 0 => none
  | fuel + 1 =>
    match skipBlank text with
    | 'n' :: 'u' :: 'l' :: 'l' :: rest => some (.null, rest)
    | 't' :: 'r' :: 'u' :: 'e' :: rest => some (.bool true, rest)
    | 'f' :: 'a' :: 'l' :: 's' :: 'e' :: rest => some (.bool false, rest)
    | '"' :: rest => (literal rest).map fun (found, rest) => (.string found, rest)
    | '[' :: rest =>
      match skipBlank rest with
      | ']' :: rest => some (.array [], rest)
      | rest => (items fuel rest).map fun (found, rest) => (.array found, rest)
    | '\x7b' :: rest =>
      match skipBlank rest with
      | '\x7d' :: rest => some (.object [], rest)
      | rest => (members fuel rest).map fun (found, rest) => (.object found, rest)
    | '-' :: rest => (numeral true rest).map fun (found, rest) => (.number found, rest)
    | rest => (numeral false rest).map fun (found, rest) => (.number found, rest)

def items (fuel : Nat) (text : List Char) : Option (List Json × List Char) :=
  match fuel with
  | 0 => none
  | fuel + 1 => do
    let (first, rest) ← value fuel text
    match skipBlank rest with
    | ']' :: rest => return ([first], rest)
    | ',' :: rest =>
      let (more, rest) ← items fuel rest
      return (first :: more, rest)
    | _ => none

def members (fuel : Nat) (text : List Char) : Option (List (Literal × Json) × List Char) :=
  match fuel with
  | 0 => none
  | fuel + 1 => do
    let '"' :: rest := skipBlank text | none
    let (name, rest) ← literal rest
    let ':' :: rest := skipBlank rest | none
    let (first, rest) ← value fuel rest
    match skipBlank rest with
    | '\x7d' :: rest => return ([(name, first)], rest)
    | ',' :: rest =>
      let (more, rest) ← members fuel rest
      return ((name, first) :: more, rest)
    | _ => none

end

/-- The document that is all of `text`. No document takes more than two units
of fuel for a character. -/
def parse (text : String) : Option Json := do
  let chars := text.toList
  let (found, rest) ← value (2 * chars.length + 2) chars
  guard (skipBlank rest).isEmpty
  return found

end TamperEvident.Json
