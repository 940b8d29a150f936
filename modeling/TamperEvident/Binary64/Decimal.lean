import TamperEvident.Binary64.Basic

/-! Doubles from and to decimal text. Writing uses the fewest digits that read
back as the same double, the nearest of those. -/

namespace TamperEvident.Binary64

def powerOfTen (n : Nat) : Option Binary64 := ofNat (10 ^ n)

def shrink : (steps : Nat) → Binary64 → Option Binary64
  | 0, x => some x
  | steps + 1, x =>
    if x.isZero then some x
    else do
      let y ← x.divMagnitude (← powerOfTen 308)
      shrink steps y

/-- `x * 10 ^ exponent` by one multiplication or division with a power of ten
up to `10 ^ 308`, after divisions by `10 ^ 308` where the exponent is smaller
still. Nothing when the result is too large. -/
def scaleByTen (x : Binary64) (exponent : Int) : Option Binary64 :=
  if 308 < exponent then
    if x.isZero then some x else none
  else if 0 ≤ exponent then do
    x.mulMagnitude (← powerOfTen exponent.toNat)
  else do
    let steps := (-exponent - 1).toNat / 308
    let y ← x.shrink steps
    y.divMagnitude (← powerOfTen (-exponent - 308 * steps).toNat)

/-- Decimal digits of a value and the power of ten of the last one. -/
structure Digits where
  value : Nat
  exponent : Int
  deriving DecidableEq, Repr

def ratioLt (a b : Nat × Nat) : Bool := a.1 * b.2 < b.1 * a.2

/-- The reals that round to a nonzero double: its lower and upper neighbours'
midpoints. Below a power of two the lower gap is half as wide. -/
def bounds (x : Binary64) : (Nat × Nat) × (Nat × Nat) :=
  let narrow := x.mantissa = 2 ^ 52 ∧ -1074 < x.exponent
  (shifted (4 * x.mantissa - if narrow then 1 else 2) 4 x.exponent,
    shifted (4 * x.mantissa + 2) 4 x.exponent)

def readsBack (x : Binary64) (d : Digits) : Bool :=
  let (lower, upper) := x.bounds
  let value := (d.value * 10 ^ d.exponent.toNat, 10 ^ (-d.exponent).toNat)
  if x.mantissa % 2 = 0 then !ratioLt value lower && !ratioLt upper value
  else ratioLt lower value && ratioLt value upper

def leadingExponent (num den : Nat) : Int :=
  let guess : Int := ((num.log2 : Int) - den.log2) * 1233 / 4096
  let reaches (e : Int) : Bool := den * 10 ^ e.toNat ≤ num * 10 ^ (-e).toNat
  if reaches (guess + 1) then guess + 1
  else if reaches guess then guess
  else guess - 1

/-- The nearer of the two neighbours of `x` on the grid of `count` digits that
reads back, if one does. -/
def withDigits (x : Binary64) (count : Nat) : Option Digits :=
  let (num, den) := shifted x.mantissa 1 x.exponent
  let exponent := leadingExponent num den - (count - 1 : Nat)
  let n := num * 10 ^ (-exponent).toNat
  let d := den * 10 ^ exponent.toNat
  let below : Digits := ⟨n / d, exponent⟩
  let above : Digits := ⟨n / d + 1, exponent⟩
  let nearest := roundDiv n d
  let (first, second) := if nearest = n / d then (below, above) else (above, below)
  if x.readsBack first then some first
  else if x.readsBack second then some second
  else none

def Digits.trim (d : Digits) : Digits :=
  if h : d.value ≠ 0 ∧ d.value % 10 = 0 then Digits.trim ⟨d.value / 10, d.exponent + 1⟩ else d
termination_by d.value
decreasing_by omega

/-- The fewest digits that read back; seventeen always suffice. -/
def shortest (x : Binary64) : Digits :=
  if x.isZero then ⟨0, 0⟩
  else
    (((List.range 17).findSome? fun i => x.withDigits (i + 1)).getD ⟨0, 0⟩).trim

def digitChars (n : Nat) : List Char := Nat.toDigits 10 n

/-- Plain notation from `1e-5` up to `1e16`, and a signed exponent outside; a
point is always written in plain notation. -/
def writeDigits (d : Digits) : List Char :=
  let digits := digitChars d.value
  let leading := d.exponent + digits.length - 1
  if d.value = 0 then ['0', '.', '0']
  else if leading < -5 ∨ 15 < leading then
    let fraction := if digits.length = 1 then [] else '.' :: digits.drop 1
    let sign := if leading < 0 then '-' else '+'
    digits.take 1 ++ fraction ++ 'e' :: sign :: digitChars leading.natAbs
  else if leading < 0 then
    ['0', '.'] ++ List.replicate (leading.natAbs - 1) '0' ++ digits
  else if 0 ≤ d.exponent then
    digits ++ List.replicate d.exponent.toNat '0' ++ ['.', '0']
  else
    digits.take (leading.toNat + 1) ++ '.' :: digits.drop (leading.toNat + 1)

def write (x : Binary64) : List Char :=
  (if x.negative then ['-'] else []) ++ writeDigits x.shortest

end TamperEvident.Binary64
