import TamperEvident.Hex

/-! Text as bytes and bytes as hexadecimal text, there and back. -/

namespace TamperEvident

theorem toList_loop (b : ByteArray) (i : Nat) (seen : List UInt8) :
    ByteArray.toList.loop b i seen = seen.reverse ++ b.data.toList.drop i := by
  fun_induction ByteArray.toList.loop b i seen with
  | case1 i seen hlt ih =>
    have hi : i < b.data.toList.length := by rwa [Array.length_toList]
    have hget : b.get! i = b.data.toList[i] := by
      rw [ByteArray.get!, getElem!_pos b.data i hlt, Array.getElem_toList]
    rw [ih, List.reverse_cons, List.append_assoc, hget, List.singleton_append,
      List.getElem_cons_drop]
  | case2 i seen hge =>
    have hdrop : b.data.toList.drop i = [] := by
      rw [List.drop_eq_nil_iff, Array.length_toList]
      exact Nat.le_of_not_lt hge
    rw [hdrop, List.append_nil]

namespace Bytes

theorem ofText_eq (s : String) : ofText s = s.toUTF8.data.toList := by
  rw [ofText, ByteArray.toList, toList_loop, List.reverse_nil, List.nil_append, List.drop_zero]

theorem toText?_ofText (s : String) : toText? (ofText s) = some s := by
  rw [toText?, ofText_eq, Array.toArray_toList, String.fromUTF8?]
  exact dif_pos s.isValidUTF8

theorem ofText_ofList (chars : List Char) :
    ofText (String.ofList chars) = chars.flatMap String.utf8EncodeChar := by
  rw [ofText_eq, String.toUTF8, String.toByteArray_ofList, List.utf8Encode, List.data_toByteArray]

end Bytes

namespace Hex

def digitByte (n : Nat) : UInt8 := if n < 10 then UInt8.ofNat (48 + n) else UInt8.ofNat (87 + n)

theorem utf8EncodeChar_digit : ∀ n < 16, String.utf8EncodeChar (digit n) = [digitByte n] := by
  decide

theorem digitValue?_digitByte : ∀ n < 16, digitValue? (digitByte n) = some n := by decide

theorem ofText_encode (b : Bytes) :
    Bytes.ofText (encode b) =
      b.flatMap fun x => [digitByte (x.toNat / 16), digitByte (x.toNat % 16)] := by
  have hdigits : ∀ x : UInt8,
      [digit (x.toNat / 16), digit (x.toNat % 16)].flatMap String.utf8EncodeChar =
        [digitByte (x.toNat / 16), digitByte (x.toNat % 16)] := by
    intro x
    have hx := x.toNat_lt
    have hhigh := utf8EncodeChar_digit (x.toNat / 16) (by omega)
    have hlow := utf8EncodeChar_digit (x.toNat % 16) (by omega)
    rw [List.flatMap_cons, List.flatMap_cons, List.flatMap_nil, hhigh, hlow]
    rfl
  simp only [encode, Bytes.ofText_ofList, encodeChars, List.flatMap_assoc, hdigits]

theorem length_ofText_encode (b : Bytes) : (Bytes.ofText (encode b)).length = 2 * b.length := by
  rw [ofText_encode]
  induction b with
  | nil => rfl
  | cons x rest ih => rw [List.flatMap_cons, List.length_append, ih]; simp; omega

theorem decodePairs_encode (b : Bytes) (position : Nat) :
    decodePairs position (Bytes.ofText (encode b)) = .ok b := by
  rw [ofText_encode]
  induction b generalizing position with
  | nil => rfl
  | cons x rest ih =>
    have hhigh := digitValue?_digitByte (x.toNat / 16) (by have := x.toNat_lt; omega)
    have hlow := digitValue?_digitByte (x.toNat % 16) (by omega)
    rw [List.flatMap_cons, List.cons_append, List.cons_append, List.nil_append, decodePairs, hhigh,
      hlow]
    simp only [ih, Except.map, Nat.div_add_mod, UInt8.ofNat_toNat]

theorem decode_encode (b : Bytes) : decode (encode b) = .ok b := by
  rw [decode, if_neg (by rw [length_ofText_encode]; omega), decodePairs_encode]

end Hex

end TamperEvident
