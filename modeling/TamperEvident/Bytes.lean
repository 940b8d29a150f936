/-! Byte strings as lists, their UTF-8 text, and fixed-width little-endian numbers. -/

namespace TamperEvident

abbrev Bytes := List UInt8

namespace Bytes

def ofText (s : String) : Bytes := s.toUTF8.toList

def toText? (b : Bytes) : Option String := String.fromUTF8? ⟨b.toArray⟩

def littleEndian : (width : Nat) → Nat → Bytes
  | 0, _ => []
  | width + 1, n => UInt8.ofNat n :: littleEndian width (n / 256)

def ofLittleEndian : Bytes → Nat
  | [] => 0
  | b :: rest => b.toNat + 256 * ofLittleEndian rest

/-- The bytes cut into pieces of `size`, the last one holding what is left. The
empty string is one empty piece. -/
def pieces (size : Nat) (b : Bytes) : List Bytes :=
  if h : size = 0 ∨ (b.drop size).isEmpty then [b]
  else
    have : (b.drop size).length < b.length := by
      simp only [List.isEmpty_iff, List.drop_eq_nil_iff] at h
      simp only [List.length_drop]
      omega
    b.take size :: pieces size (b.drop size)
termination_by b.length

@[simp] theorem length_littleEndian (width n : Nat) : (littleEndian width n).length = width := by
  induction width generalizing n with
  | zero => rfl
  | succ width ih => simp [littleEndian, ih]

theorem ofLittleEndian_littleEndian (width n : Nat) :
    ofLittleEndian (littleEndian width n) = n % 256 ^ width := by
  induction width generalizing n with
  | zero => simp [littleEndian, ofLittleEndian, Nat.mod_one]
  | succ width ih =>
    rw [littleEndian, ofLittleEndian, ih, UInt8.toNat_ofNat', Nat.pow_succ' (n := width)]
    exact Nat.mod_mul.symm

end Bytes

end TamperEvident
