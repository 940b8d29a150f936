import Mathlib.Control.Basic
import Mathlib.Data.Option.Basic
import TamperEvident.Json.Literal

/-! A quoted text reads back as that text, whatever characters it has. -/

namespace TamperEvident.Json

def written (c : Char) : Piece :=
  if c.toNat = 8 ∨ c.toNat = 12 ∨ c = '\n' ∨ c = '\r' ∨ c = '\t' ∨ 32 ≤ c.toNat then .char c
  else .unit c.toNat

theorem pieces_char {c : Char} (hquote : c ≠ '"') (hslash : c ≠ '\\') (hcontrol : 32 ≤ c.toNat)
    (rest : List Char) :
    pieces (c :: rest) = (pieces rest).map fun p => (.char c :: p.1, p.2) := by
  rw [pieces]
  · simp only [guard, hslash, hcontrol, ne_eq, not_false_eq_true, and_self, if_true, bind,
      Option.bind, pure]
    cases pieces rest <;> rfl
  · exact hquote
  · rintro a b c d rest rfl
    exact absurd rfl hslash
  · rintro e rest rfl
    exact absurd rfl hslash

theorem hexValue?_digitChar : ∀ n < 16, hexValue? (Nat.digitChar n) = some n := by decide

theorem pieces_control {c : Char} (h : c.toNat < 32) (rest : List Char) :
    pieces ('\\' :: 'u' :: '0' :: '0' :: Nat.digitChar (c.toNat / 16) ::
        Nat.digitChar (c.toNat % 16) :: rest) =
      (pieces rest).map fun p => (.unit c.toNat :: p.1, p.2) := by
  have hzero : hexValue? '0' = some 0 := by decide
  have hhigh := hexValue?_digitChar (c.toNat / 16) (by omega)
  have hlow := hexValue?_digitChar (c.toNat % 16) (by omega)
  have hcode : 16 * (c.toNat / 16) + c.toNat % 16 = c.toNat := Nat.div_add_mod _ _
  rw [pieces, unit?]
  simp only [hzero, hhigh, hlow, bind, Option.bind, pure, Nat.mul_zero, Nat.zero_add, hcode]
  cases pieces rest <;> rfl

theorem pieces_short {e c : Char} (he : e ≠ 'u') (hc : escaped? e = some c) (rest : List Char) :
    pieces ('\\' :: e :: rest) = (pieces rest).map fun p => (.char c :: p.1, p.2) := by
  rw [pieces]
  · simp only [hc, bind, Option.bind, pure]
    cases pieces rest <;> rfl
  · intro a b c d rest' h
    exact absurd h he

theorem pieces_escape (c : Char) (rest : List Char) :
    pieces (escape c ++ rest) = (pieces rest).map fun p => (written c :: p.1, p.2) := by
  have hshort : ∀ {e d : Char}, e ≠ 'u' → escaped? e = some d → written d = .char d →
      pieces ('\\' :: e :: rest) = (pieces rest).map fun p => (written d :: p.1, p.2) := by
    intro e d he hd hw
    rw [hw, pieces_short he hd]
  by_cases hquote : c = '"'
  · subst hquote
    exact hshort (by decide) rfl (by decide)
  by_cases hslash : c = '\\'
  · subst hslash
    exact hshort (by decide) rfl (by decide)
  by_cases hback : c.toNat = 8
  · obtain rfl : c = Char.ofNat 8 := by rw [← hback, Char.ofNat_toNat]
    exact hshort (by decide) rfl (by decide)
  by_cases hfeed : c.toNat = 12
  · obtain rfl : c = Char.ofNat 12 := by rw [← hfeed, Char.ofNat_toNat]
    exact hshort (by decide) rfl (by decide)
  by_cases hline : c = '\n'
  · subst hline
    exact hshort (by decide) rfl (by decide)
  by_cases hreturn : c = '\r'
  · subst hreturn
    exact hshort (by decide) rfl (by decide)
  by_cases htab : c = '\t'
  · subst htab
    exact hshort (by decide) rfl (by decide)
  by_cases hcontrol : c.toNat < 32
  · have hw : written c = .unit c.toNat := by
      simp [written, hback, hfeed, hline, hreturn, htab, hcontrol]
    rw [hw, ← pieces_control hcontrol]
    simp [escape, hquote, hslash, hback, hfeed, hline, hreturn, htab, hcontrol]
  · have hw : written c = .char c := by simp [written, Nat.le_of_not_lt hcontrol]
    rw [hw, ← pieces_char hquote hslash (Nat.le_of_not_lt hcontrol)]
    simp [escape, hquote, hslash, hback, hfeed, hline, hreturn, htab, hcontrol]

theorem pieces_escapes (chars rest : List Char) :
    pieces (chars.flatMap escape ++ '"' :: rest) = some (chars.map written, rest) := by
  induction chars with
  | nil => rfl
  | cons c chars ih =>
    rw [List.flatMap_cons, List.append_assoc, pieces_escape, ih]
    rfl

/-- A code below those of surrogates stands for a character whatever follows. -/
theorem assemble_unit {code : Nat} (h : code < 0xD800) (rest : List Piece) :
    assemble (.unit code :: rest) = (assemble rest).map (Char.ofNat code :: ·) := by
  have hhigh : isHigh code = false := by simp [isHigh]; omega
  have hlow : isLow code = false := by simp [isLow]; omega
  rcases rest with _ | ⟨c | next, rest⟩
  · simp only [assemble, hhigh, hlow]
    rfl
  · simp only [assemble, hhigh, hlow]
    cases assemble rest <;> rfl
  · simp only [assemble.eq_3, hhigh, hlow]
    cases assemble (.unit next :: rest) <;> rfl

theorem assemble_written (chars : List Char) : assemble (chars.map written) = some chars := by
  induction chars with
  | nil => rfl
  | cons c chars ih =>
    rw [List.map_cons, written]
    split
    · rw [assemble, ih]
      rfl
    · rename_i h
      have hlt : c.toNat < 0xD800 := by omega
      rw [assemble_unit hlt, ih, Option.map_some, Char.ofNat_toNat]

theorem literal_quote (s : String) (rest : List Char) :
    literal (s.toList.flatMap escape ++ '"' :: rest) = some (some s, rest) := by
  rw [literal, pieces_escapes]
  simp only [bind, Option.bind, assemble_written, Option.map_some, String.ofList_toList]
  rfl

end TamperEvident.Json
