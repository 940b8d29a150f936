/-! Finite double-precision numbers `± mantissa * 2 ^ exponent`, rounded to
nearest with ties to even. Everything is exact arithmetic on naturals. -/

namespace TamperEvident

/-- Normal form: either `exponent = -1074`, or the mantissa has 53 binary
digits. Zero has mantissa 0 and keeps its sign. -/
structure Binary64 where
  negative : Bool
  mantissa : Nat
  exponent : Int
  deriving DecidableEq, Repr

namespace Binary64

def zero (negative : Bool) : Binary64 := ⟨negative, 0, -1074⟩

def isZero (x : Binary64) : Bool := x.mantissa == 0

/-- The natural nearest to `num / den`, the even one of two. -/
def roundDiv (num den : Nat) : Nat :=
  let q := num / den
  let r := num % den
  if 2 * r < den ∨ (2 * r = den ∧ q % 2 = 0) then q else q + 1

/-- `(num, den)` for `num / den * 2 ^ exponent`. -/
def shifted (num den : Nat) (exponent : Int) : Nat × Nat :=
  (num * 2 ^ exponent.toNat, den * 2 ^ (-exponent).toNat)

/-- The double nearest to `num / den`; nothing past the largest one. -/
def ofRatio (negative : Bool) (num den : Nat) : Option Binary64 :=
  if num = 0 then some (zero negative)
  else
    let guess : Int := num.log2 - den.log2 - 52
    let (n, d) := shifted num den (-guess)
    let exponent := max (-1074) (if n < 2 ^ 52 * d then guess - 1 else guess)
    let (n, d) := shifted num den (-exponent)
    let m := roundDiv n d
    let (mantissa, exponent) := if m = 2 ^ 53 then (2 ^ 52, exponent + 1) else (m, exponent)
    if 971 < exponent then none else some ⟨negative, mantissa, exponent⟩

def ofNat (n : Nat) : Option Binary64 := ofRatio false n 1

def mulMagnitude (x y : Binary64) : Option Binary64 :=
  let (n, d) := shifted (x.mantissa * y.mantissa) 1 (x.exponent + y.exponent)
  ofRatio x.negative n d

/-- The quotient of the magnitudes, with the sign of `x`. The divisor is not zero. -/
def divMagnitude (x y : Binary64) : Option Binary64 :=
  let (n, d) := shifted x.mantissa y.mantissa (x.exponent - y.exponent)
  ofRatio x.negative n d

end Binary64

end TamperEvident
