import TamperEvident.Binary64.Decimal
import TamperEvident.Json.Syntax

/-! The value of a numeral: a 64-bit whole number where it is written as one
and fits, and a double otherwise. -/

namespace TamperEvident.Json

inductive Number where
  | natural (value : UInt64)
  /-- The number `-1 - offset`. -/
  | negative (offset : Fin (2 ^ 63))
  | float (value : Binary64)
  deriving DecidableEq, Repr

def digitValue (c : Char) : Nat := c.toNat - 48

/-- Appends digits to a significand while it stays below `2 ^ 64`, and gives the
digits left over. -/
def accumulate (significand : Nat) : List Char → Nat × List Char
  | [] => (significand, [])
  | c :: rest =>
    let next := 10 * significand + digitValue c
    if next < 2 ^ 64 then accumulate next rest else (significand, c :: rest)

/-- An exponent from its digits. From `2 ^ 31` on it counts as `2 ^ 31`, which no
count of places makes up for. -/
def exponentValue : Option (Bool × List Char) → Int
  | none => 0
  | some (negative, found) =>
    let magnitude : Nat := found.foldl (fun n c => min (10 * n + digitValue c) (2 ^ 31)) 0
    if negative then -magnitude else magnitude

def float (negative : Bool) (significand : Nat) (exponent : Int) : Option Number := do
  let x ← Binary64.ofNat significand
  let y ← x.scaleByTen exponent
  return .float { y with negative }

/-- The number that a numeral stands for; nothing when it is too large for a
double. Digits past the significand count only by their place. -/
def numberOf (n : Numeral) : Option Number :=
  let (whole, left) := accumulate 0 n.integer
  match n.fraction, n.exponent, left with
  | none, none, [] =>
    if !n.negative then some (.natural (UInt64.ofNat whole))
    else if h : 0 < whole ∧ whole ≤ 2 ^ 63 then some (.negative ⟨whole - 1, by omega⟩)
    else float true whole 0
  | fraction, exponent, left =>
    let places := fraction.getD []
    let (significand, unread) := accumulate whole places
    float n.negative significand
      (left.length - (places.length - unread.length : Nat) + exponentValue exponent)

def Number.write : Number → List Char
  | natural value => Nat.toDigits 10 value.toNat
  | negative offset => '-' :: Nat.toDigits 10 (offset + 1)
  | float value => value.write

end TamperEvident.Json
