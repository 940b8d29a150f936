import TamperEvident.Binary
import TamperEvident.Bytes

/-! Canonical base-128 numbers: seven bits a byte, least significant group
first, the high bit set on every byte but the last. Only the shortest form of a
number below the width limit is read. -/

namespace TamperEvident.Varint

inductive Error where
  | truncated
  | overlong (maxBytes : Nat)
  | overflow (bits : Nat)
  | nonMinimal
  deriving DecidableEq, Repr

def Error.message : Error → String
  | .truncated => "truncated varint"
  | .overlong maxBytes => "varint exceeds " ++ toString maxBytes ++ " bytes"
  | .overflow bits => "varint value overflows " ++ toString bits ++ " bits"
  | .nonMinimal => "non-minimal varint encoding"

def encode (n : Nat) : Bytes :=
  if n < 128 then [UInt8.ofNat n] else UInt8.ofNat (n % 128 + 128) :: encode (n / 128)
termination_by n
decreasing_by omega

def size (n : Nat) : Nat := (max 1 (bitLength n) + 6) / 7

/-- Bytes that a number below `2 ^ bits` can take. -/
def maxBytes (bits : Nat) : Nat := (bits + 6) / 7

/-- Reads on at byte number `i` of an encoding, giving the value of the groups
from there and how many bytes they took. -/
def decodeFrom (bits i : Nat) : Bytes → Except Error (Nat × Nat)
  | [] => .error .truncated
  | b :: rest =>
    if i + 1 = maxBytes bits ∧ 128 ≤ b.toNat then .error (.overlong (maxBytes bits))
    else if i + 1 = maxBytes bits ∧ 2 ^ (bits - 7 * i) ≤ b.toNat then .error (.overflow bits)
    else if b.toNat < 128 then
      if b.toNat = 0 ∧ 0 < i then .error .nonMinimal else .ok (b.toNat, 1)
    else
      (decodeFrom bits (i + 1) rest).map fun (high, used) =>
        (b.toNat - 128 + 128 * high, used + 1)

/-- The number below `2 ^ bits` at the front of `data`, and the bytes it takes. -/
def decode (bits : Nat) (data : Bytes) : Except Error (Nat × Nat) :=
  decodeFrom bits 0 data

theorem decodeFrom_used {bits i value used : Nat} {data : Bytes}
    (h : decodeFrom bits i data = .ok (value, used)) : 0 < used ∧ used ≤ data.length := by
  induction data generalizing i value used with
  | nil => simp [decodeFrom] at h
  | cons b rest ih =>
    simp only [decodeFrom] at h
    split at h
    · simp at h
    split at h
    · simp at h
    split at h
    · split at h
      · simp at h
      · simp only [Except.ok.injEq, Prod.mk.injEq] at h
        simp [← h.2]
    · cases hr : decodeFrom bits (i + 1) rest with
      | error e => simp [hr, Except.map] at h
      | ok reading =>
        obtain ⟨high, n⟩ := reading
        simp only [hr, Except.map, Except.ok.injEq, Prod.mk.injEq] at h
        have := ih hr
        simp only [List.length_cons]
        omega

theorem decode_used {bits value used : Nat} {data : Bytes}
    (h : decode bits data = .ok (value, used)) : 0 < used ∧ used ≤ data.length :=
  decodeFrom_used h

end TamperEvident.Varint
