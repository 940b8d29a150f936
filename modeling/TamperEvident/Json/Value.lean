import TamperEvident.Json.Literal
import TamperEvident.Json.Number

/-! JSON values and their compact text. -/

namespace TamperEvident.Json

inductive Value where
  | null
  | bool (value : Bool)
  | number (value : Number)
  | string (value : String)
  | array (items : List Value)
  | object (members : List (String × Value))
  deriving Repr

namespace Value

mutual

/-- Compact text: no blanks, members in the order they are given. -/
def write : Value → List Char
  | null => ['n', 'u', 'l', 'l']
  | bool true => ['t', 'r', 'u', 'e']
  | bool false => ['f', 'a', 'l', 's', 'e']
  | number value => value.write
  | string value => quote value
  | array [] => ['[', ']']
  | array (first :: rest) => '[' :: first.write ++ writeItems rest
  | object [] => ['\x7b', '\x7d']
  | object ((name, first) :: rest) =>
    '\x7b' :: quote name ++ ':' :: first.write ++ writeMembers rest

def writeItems : List Value → List Char
  | [] => [']']
  | item :: rest => ',' :: item.write ++ writeItems rest

def writeMembers : List (String × Value) → List Char
  | [] => ['\x7d']
  | (name, item) :: rest => ',' :: quote name ++ ':' :: item.write ++ writeMembers rest

end

def text (v : Value) : String := String.ofList v.write

def isNull : Value → Bool
  | null => true
  | _ => false

def ofNat (n : Nat) : Value := .number (.natural (UInt64.ofNat n))

def ofWord (n : UInt64) : Value := .number (.natural n)

end Value

end TamperEvident.Json
