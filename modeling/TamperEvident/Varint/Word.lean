import TamperEvident.Varint

/-! Base-128 numbers in machine words. A number is written behind what a buffer
holds, one group after another, and read by moving each group to its place in a
64-bit word. -/

namespace TamperEvident.Varint

def appendTo (buffer : Bytes) (value : UInt64) : Bytes :=
  let group := (value &&& 127).toUInt8
  let high := value >>> 7
  if high = 0 then buffer ++ [group] else appendTo (buffer ++ [group ||| 128]) high
termination_by value.toNat
decreasing_by
  have hhigh : (value >>> 7).toNat = value.toNat / 128 := by
    rw [UInt64.toNat_shiftRight]
    exact Nat.shiftRight_eq_div_pow value.toNat 7
  have hne : (value >>> 7).toNat ≠ 0 := fun h => ‹¬ high = 0› (UInt64.toNat_inj.mp h)
  omega

def payload (b : UInt8) : UInt64 := (b &&& 127).toUInt64

/-- Reads on at byte number `i`, with the groups before it already in `value`. -/
def gather (bits i : Nat) (value : UInt64) : Bytes → Except Error (UInt64 × Nat)
  | [] => .error .truncated
  | b :: rest =>
    let shift := 7 * i
    if i + 1 = maxBytes bits ∧ b &&& 128 ≠ 0 then .error (.overlong (maxBytes bits))
    else if i + 1 = maxBytes bits ∧ payload b >>> UInt64.ofNat (bits - shift) ≠ 0 then
      .error (.overflow bits)
    else
      let value := value ||| payload b <<< UInt64.ofNat shift
      if b &&& 128 = 0 then
        if b = 0 ∧ 0 < i then .error .nonMinimal else .ok (value, i + 1)
      else gather bits (i + 1) value rest

def decode64 (data : Bytes) : Except Error (UInt64 × Nat) := gather 64 0 0 data

/-- What was read is checked once more before it goes into the narrower word. -/
def decode32 (data : Bytes) : Except Error (UInt32 × Nat) := do
  let (value, used) ← gather 32 0 0 data
  if value.toNat < 2 ^ 32 then return (value.toUInt32, used) else throw (.overflow 32)

end TamperEvident.Varint
