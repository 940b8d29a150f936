import Mathlib.Control.Basic
import Mathlib.Data.Option.Basic
import TamperEvident.Json.Number
import TamperEvident.Json.Parser

/-! Whole numbers read back as what they were written for, in front of anything
that does not go on with the number. -/

namespace TamperEvident.Json

/-- What may stand after a value: the end, a comma or a closing mark. -/
def Closes (rest : List Char) : Prop := ∀ c ∈ rest.head?, c = ',' ∨ c = ']' ∨ c = '\x7d'

theorem closes_nil : Closes [] := by
  intro c hc
  cases hc

theorem closes_cons {c : Char} (h : c = ',' ∨ c = ']' ∨ c = '\x7d') (rest : List Char) :
    Closes (c :: rest) := by
  intro d hd
  obtain rfl := Option.some.inj hd
  exact h

theorem digits_append {ds rest : List Char} (hds : ∀ c ∈ ds, isDigit c = true)
    (hrest : Closes rest) : digits (ds ++ rest) = if ds.isEmpty then none else some (ds, rest) := by
  have hhead : ∀ c ∈ rest.head?, isDigit c = false := by
    intro c hc
    rcases hrest c hc with rfl | rfl | rfl <;> decide
  have hstop : rest.takeWhile isDigit = [] ∧ rest.dropWhile isDigit = rest := by
    cases rest with
    | nil => exact ⟨rfl, rfl⟩
    | cons c more =>
      have hc := hhead c rfl
      exact ⟨List.takeWhile_cons_of_neg (by simp [hc]), List.dropWhile_cons_of_neg (by simp [hc])⟩
  rw [digits, List.takeWhile_append_of_pos hds, List.dropWhile_append_of_pos hds, hstop.1, hstop.2,
    List.append_nil]

theorem fraction_closes {rest : List Char} (hrest : Closes rest) :
    fraction rest = some (none, rest) := by
  rw [fraction]
  rintro more rfl
  have h := hrest '.' rfl
  simp at h

theorem exponent_closes {rest : List Char} (hrest : Closes rest) :
    exponent rest = some (none, rest) := by
  cases rest with
  | nil => rfl
  | cons c more =>
    rw [exponent, if_neg]
    rintro (rfl | rfl)
    · simpa using hrest 'e' rfl
    · simpa using hrest 'E' rfl

theorem isDigit_of_mem_toDigits {n : Nat} : ∀ c ∈ Nat.toDigits 10 n, isDigit c = true := by
  intro c hc
  have h := Nat.isDigit_of_mem_toDigits (by decide) (by decide) hc
  simp only [Char.isDigit, Bool.and_eq_true, decide_eq_true_eq] at h
  simp only [isDigit, Bool.and_eq_true, decide_eq_true_eq]
  exact h

theorem head?_toDigits {n : Nat} (hn : 0 < n) : (Nat.toDigits 10 n).head? ≠ some '0' := by
  induction n using Nat.strongRecOn with
  | ind n ih =>
    by_cases hlt : n < 10
    · rw [Nat.toDigits_of_lt_base hlt, List.head?_cons]
      intro h
      have := Nat.digitChar_eq_zero.mp (Option.some.inj h)
      omega
    · rw [Nat.toDigits_of_base_le (by decide) (Nat.le_of_not_lt hlt), List.head?_append]
      have hhead := ih (n / 10) (by omega) (by omega)
      cases h : (Nat.toDigits 10 (n / 10)).head? with
      | none => exact absurd (List.head?_eq_none_iff.mp h) Nat.toDigits_ne_nil
      | some c =>
        rw [h] at hhead
        exact hhead

theorem numeral_toDigits (negative : Bool) (n : Nat) {rest : List Char} (hrest : Closes rest) :
    numeral negative (Nat.toDigits 10 n ++ rest) =
      some (⟨negative, Nat.toDigits 10 n, none, none⟩, rest) := by
  have hzero : (Nat.toDigits 10 n).head? ≠ some '0' ∨ (Nat.toDigits 10 n).length = 1 := by
    by_cases hn : n = 0
    · exact .inr (by rw [hn, Nat.toDigits_zero]; rfl)
    · exact .inl (head?_toDigits (Nat.pos_of_ne_zero hn))
  have hdigits := @digits_append (Nat.toDigits 10 n) rest isDigit_of_mem_toDigits hrest
  rw [if_neg (by simp [Nat.toDigits_ne_nil])] at hdigits
  rw [numeral, hdigits]
  simp only [bind, Option.bind, guard, hzero, if_true, fraction_closes hrest, exponent_closes hrest]
  rfl

/-- Digits are taken up whole while the number they make fits. -/
theorem accumulate_eq {ds : List Char} {significand : Nat}
    (h : Nat.ofDigitChars 10 ds significand < 2 ^ 64) :
    accumulate significand ds = (Nat.ofDigitChars 10 ds significand, []) := by
  induction ds generalizing significand with
  | nil => rfl
  | cons c rest ih =>
    have hnext : Nat.ofDigitChars 10 (c :: rest) significand =
        Nat.ofDigitChars 10 rest (10 * significand + digitValue c) := Nat.ofDigitChars_cons
    rw [hnext] at h
    have hle : 10 * significand + digitValue c ≤
        Nat.ofDigitChars 10 rest (10 * significand + digitValue c) := by
      rw [Nat.ofDigitChars_eq_ofDigitChars_zero]
      exact Nat.le_add_right_of_le (Nat.le_mul_of_pos_left _ (Nat.pow_pos (by decide)))
    rw [accumulate, hnext, ← ih h]
    exact if_pos (Nat.lt_of_le_of_lt hle h)

theorem numberOf_natural (n : UInt64) :
    numberOf ⟨false, Nat.toDigits 10 n.toNat, none, none⟩ = some (.natural n) := by
  have hn := n.toNat_lt
  rw [numberOf, accumulate_eq (by rwa [Nat.ofDigitChars_ten_toDigits]),
    Nat.ofDigitChars_ten_toDigits]
  simp

theorem numberOf_negative (offset : Fin (2 ^ 63)) :
    numberOf ⟨true, Nat.toDigits 10 (offset + 1), none, none⟩ = some (.negative offset) := by
  have hlt : offset.val + 1 < 2 ^ 64 := by omega
  rw [numberOf, accumulate_eq (by rwa [Nat.ofDigitChars_ten_toDigits]),
    Nat.ofDigitChars_ten_toDigits]
  have hle : 0 < offset.val + 1 ∧ offset.val + 1 ≤ 2 ^ 63 := by omega
  simp only [Bool.not_true, Bool.false_eq_true, if_false, dif_pos hle]
  simp

end TamperEvident.Json
