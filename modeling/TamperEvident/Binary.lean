/-! Binary digits of naturals: how many there are, how many are ones, and the
largest power of two below a number. -/

-- Powers mean the same in every module, whether or not it imports algebra.
attribute [instance (high), default_instance (high + 1)] instPowNat

namespace TamperEvident

def bitLength (n : Nat) : Nat := if n = 0 then 0 else n.log2 + 1

def popCount (n : Nat) : Nat :=
  if n = 0 then 0 else n % 2 + popCount (n / 2)
termination_by n
decreasing_by omega

/-- Where a list of two or more entries is cut into a perfect left half and the
rest: the largest power of two strictly below its length. -/
def splitPoint (n : Nat) : Nat := 2 ^ (n - 1).log2

theorem splitPoint_pos (n : Nat) : 0 < splitPoint n := Nat.two_pow_pos _

theorem splitPoint_lt {n : Nat} (h : 2 ≤ n) : splitPoint n < n := by
  have := Nat.log2_self_le (show n - 1 ≠ 0 by omega)
  unfold splitPoint
  omega

end TamperEvident
