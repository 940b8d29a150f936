import Mathlib.Tactic.ByContra
import TamperEvident.Proofs.Except
import TamperEvident.Varint

/-! The decoder reads exactly what the encoder writes: a number below the limit
of the width, in its only form. It asks for more bytes just when such a number
could still begin this way. -/

namespace TamperEvident.Varint

theorem encode_of_lt {n : Nat} (h : n < 128) : encode n = [UInt8.ofNat n] := by
  rw [encode, if_pos h]

theorem encode_of_le {n : Nat} (h : 128 ≤ n) :
    encode n = UInt8.ofNat (n % 128 + 128) :: encode (n / 128) := by
  rw [encode, if_neg (by omega)]

/-- A byte with more after it goes in front of what the rest of the number is written as. -/
theorem encode_cons {b : UInt8} {high : Nat} (hb : 128 ≤ b.toNat) (hhigh : high ≠ 0) :
    encode (b.toNat - 128 + 128 * high) = b :: encode high := by
  have hlt := b.toNat_lt
  have hdiv : (b.toNat - 128 + 128 * high) / 128 = high := by omega
  have hmod : (b.toNat - 128 + 128 * high) % 128 + 128 = b.toNat := by omega
  rw [encode_of_le (by omega), hdiv, hmod, UInt8.ofNat_toNat]

theorem bitLength_le_iff {n k : Nat} : bitLength n ≤ k ↔ n < 2 ^ k := by
  rw [bitLength]
  by_cases h : n = 0
  · rw [if_pos h, h]
    exact iff_of_true (Nat.zero_le k) (Nat.two_pow_pos k)
  · rw [if_neg h, Nat.succ_le_iff, Nat.log2_lt h]

theorem bitLength_group {n : Nat} (h : 128 ≤ n) : bitLength n = bitLength (n / 128) + 7 := by
  have hiff : ∀ k, bitLength n ≤ k ↔ bitLength (n / 128) + 7 ≤ k := by
    intro k
    by_cases hk : 7 ≤ k
    · obtain ⟨k, rfl⟩ := Nat.exists_eq_add_of_le hk
      have hpow : 2 ^ (7 + k) = 128 * 2 ^ k := Nat.pow_add 2 7 k
      have hrest : bitLength (n / 128) + 7 ≤ 7 + k ↔ bitLength (n / 128) ≤ k := by omega
      rw [hrest, bitLength_le_iff, bitLength_le_iff, hpow]
      omega
    · have hpow : 2 ^ k ≤ 2 ^ 7 := Nat.pow_le_pow_right (by omega) (by omega)
      rw [bitLength_le_iff]
      omega
  exact Nat.le_antisymm ((hiff _).mpr (Nat.le_refl _)) ((hiff _).mp (Nat.le_refl _))

theorem length_encode (n : Nat) : (encode n).length = size n := by
  induction n using Nat.strongRecOn with
  | ind n ih =>
    by_cases hsmall : n < 128
    · have hbits : bitLength n ≤ 7 := bitLength_le_iff.mpr hsmall
      rw [encode_of_lt hsmall, List.length_singleton, size]
      omega
    · have hgroup := bitLength_group (Nat.le_of_not_lt hsmall)
      have hhigh : bitLength (n / 128) ≠ 0 := fun h => by
        have := bitLength_le_iff.mp (Nat.le_of_eq h)
        omega
      rw [encode_of_le (Nat.le_of_not_lt hsmall), List.length_cons, ih (n / 128) (by omega), size,
        size, hgroup]
      omega

theorem toNat_ofNat_of_lt {n : Nat} (h : n < 256) : (UInt8.ofNat n).toNat = n := by
  rw [UInt8.toNat_ofNat']
  omega

theorem maxBytes_pos {bits : Nat} (hbits : 0 < bits) : 0 < maxBytes bits := by
  unfold maxBytes
  omega

/-- Room for a group more is room for 128 times the number. -/
theorem two_pow_room {bits i : Nat} (h : i + 1 < maxBytes bits) :
    2 ^ (bits - 7 * i) = 128 * 2 ^ (bits - 7 * (i + 1)) := by
  have hroom : bits - 7 * i = 7 + (bits - 7 * (i + 1)) := by
    unfold maxBytes at h
    omega
  rw [hroom, Nat.pow_add]

theorem decodeFrom_encode {bits i n : Nat} (hi : i < maxBytes bits) (hn : n < 2 ^ (bits - 7 * i))
    (hzero : 0 < i → n ≠ 0) (rest : Bytes) :
    decodeFrom bits i (encode n ++ rest) = .ok (n, (encode n).length) := by
  induction n using Nat.strongRecOn generalizing i with
  | ind n ih =>
    by_cases hsmall : n < 128
    · have hbyte := toNat_ofNat_of_lt (by omega : n < 256)
      rw [encode_of_lt hsmall, List.singleton_append, decodeFrom, hbyte, if_neg (by omega),
        if_neg (by omega), if_pos hsmall, if_neg (by omega)]
      rfl
    · have hlarge : 128 ≤ n := by omega
      have hbyte := toNat_ofNat_of_lt (by omega : n % 128 + 128 < 256)
      have hmore : i + 1 < maxBytes bits := by
        by_contra hlast
        have hroom : bits - 7 * i ≤ 7 := by
          unfold maxBytes at hi hlast
          omega
        have hpow : 2 ^ (bits - 7 * i) ≤ 2 ^ 7 := Nat.pow_le_pow_right (by omega) hroom
        omega
      have hgroup := two_pow_room hmore
      have hrest := ih (n / 128) (by omega) hmore (by omega) (by omega)
      rw [encode_of_le hlarge, List.cons_append, decodeFrom, hbyte, if_neg (by omega),
        if_neg (by omega), if_neg (by omega), hrest]
      simp only [Except.map, List.length_cons, Except.ok.injEq, Prod.mk.injEq, and_true]
      omega

theorem decodeFrom_cons_cases {bits i n used : Nat} {b : UInt8} {rest : Bytes}
    (h : decodeFrom bits i (b :: rest) = .ok (n, used)) :
    (b.toNat < 128 ∧ (i + 1 = maxBytes bits → b.toNat < 2 ^ (bits - 7 * i)) ∧
        (0 < i → b.toNat ≠ 0) ∧ n = b.toNat ∧ used = 1) ∨
      (128 ≤ b.toNat ∧ i + 1 ≠ maxBytes bits ∧ ∃ high length,
        decodeFrom bits (i + 1) rest = .ok (high, length) ∧
          n = b.toNat - 128 + 128 * high ∧ used = length + 1) := by
  rw [decodeFrom] at h
  by_cases hoverlong : i + 1 = maxBytes bits ∧ 128 ≤ b.toNat
  · simp [hoverlong] at h
  rw [if_neg hoverlong] at h
  by_cases hoverflow : i + 1 = maxBytes bits ∧ 2 ^ (bits - 7 * i) ≤ b.toNat
  · simp [hoverflow] at h
  rw [if_neg hoverflow] at h
  by_cases hlast : b.toNat < 128
  · rw [if_pos hlast] at h
    by_cases hpadding : b.toNat = 0 ∧ 0 < i
    · simp [hpadding] at h
    · rw [if_neg hpadding] at h
      simp only [Except.ok.injEq, Prod.mk.injEq] at h
      exact .inl ⟨hlast, by omega, by omega, h.1.symm, h.2.symm⟩
  · rw [if_neg hlast] at h
    cases hr : decodeFrom bits (i + 1) rest with
    | error e => simp [hr, Except.map] at h
    | ok reading =>
      obtain ⟨high, length⟩ := reading
      simp only [hr, Except.map, Except.ok.injEq, Prod.mk.injEq] at h
      exact .inr ⟨by omega, by omega, high, length, rfl, h.1.symm, h.2.symm⟩

theorem encode_of_decodeFrom {bits i n used : Nat} {data : Bytes} (hi : i < maxBytes bits)
    (h : decodeFrom bits i data = .ok (n, used)) :
    n < 2 ^ (bits - 7 * i) ∧ (0 < i → n ≠ 0) ∧ used = (encode n).length ∧ encode n <+: data := by
  induction data generalizing i n used with
  | nil => simp [decodeFrom] at h
  | cons b rest ih =>
    rcases decodeFrom_cons_cases h with
      ⟨hlast, hroom, hzero, rfl, rfl⟩ | ⟨hmore, hroom, high, length, hr, rfl, rfl⟩
    · have hfits : b.toNat < 2 ^ (bits - 7 * i) := by
        by_cases hend : i + 1 = maxBytes bits
        · exact hroom hend
        · have hgroup := two_pow_room (by omega : i + 1 < maxBytes bits)
          have hpow := Nat.two_pow_pos (bits - 7 * (i + 1))
          omega
      rw [encode_of_lt hlast, UInt8.ofNat_toNat]
      exact ⟨hfits, hzero, rfl, List.prefix_append [b] rest⟩
    · have hi' : i + 1 < maxBytes bits := by omega
      obtain ⟨hhigh, hzero, hlength, hprefix⟩ := ih hi' hr
      have hb := b.toNat_lt
      have hgroup := two_pow_room hi'
      rw [encode_cons hmore (hzero (Nat.succ_pos i)), List.length_cons, hlength]
      exact ⟨by omega, by omega, rfl, (List.prefix_cons_inj b).mpr hprefix⟩

/-- A number is read off the front just when it is below the limit and its
encoding stands there. -/
theorem decode_eq_ok {bits n used : Nat} (hbits : 0 < bits) {data : Bytes} :
    decode bits data = .ok (n, used) ↔
      n < 2 ^ bits ∧ used = (encode n).length ∧ encode n <+: data := by
  constructor
  · intro h
    obtain ⟨hn, _, hused, hprefix⟩ := encode_of_decodeFrom (maxBytes_pos hbits) h
    exact ⟨hn, hused, hprefix⟩
  · rintro ⟨hn, rfl, rest, rfl⟩
    exact decodeFrom_encode (maxBytes_pos hbits) hn (by omega) rest

theorem decodeFrom_cons_of_more {bits i : Nat} {b : UInt8} (hb : 128 ≤ b.toNat)
    (hroom : i + 1 ≠ maxBytes bits) (rest : Bytes) :
    decodeFrom bits i (b :: rest) = (decodeFrom bits (i + 1) rest).map fun reading =>
      (b.toNat - 128 + 128 * reading.1, reading.2 + 1) := by
  rw [decodeFrom, if_neg (by omega), if_neg (by omega), if_neg (by omega)]

/-- A byte with nothing after it, or too many, decides the answer. -/
theorem decodeFrom_cons_of_last {bits i : Nat} {b : UInt8}
    (h : ¬ (128 ≤ b.toNat ∧ i + 1 ≠ maxBytes bits)) (rest : Bytes) :
    decodeFrom bits i (b :: rest) = decodeFrom bits i [b] ∧
      decodeFrom bits i [b] ≠ .error .truncated := by
  by_cases hoverlong : i + 1 = maxBytes bits ∧ 128 ≤ b.toNat
  · simp [decodeFrom, hoverlong]
  · have hlast : b.toNat < 128 := by omega
    simp only [decodeFrom, if_neg hoverlong, if_pos hlast, true_and]
    split
    · simp
    · split <;> simp

theorem decodeFrom_cons_truncated {bits i : Nat} {b : UInt8} {rest : Bytes} :
    decodeFrom bits i (b :: rest) = .error .truncated ↔
      128 ≤ b.toNat ∧ i + 1 ≠ maxBytes bits ∧ decodeFrom bits (i + 1) rest = .error .truncated := by
  by_cases hmore : 128 ≤ b.toNat ∧ i + 1 ≠ maxBytes bits
  · rw [decodeFrom_cons_of_more hmore.1 hmore.2, map_eq_error, ← and_assoc, and_iff_right hmore]
  · obtain ⟨hsame, hended⟩ := decodeFrom_cons_of_last hmore rest
    rw [hsame]
    exact ⟨fun h => absurd h hended, fun ⟨hb, hroom, _⟩ => absurd ⟨hb, hroom⟩ hmore⟩

/-- What ends too early is the beginning of a number that would have fitted: a last group of one
makes it whole. -/
theorem exists_of_truncated {bits i : Nat} {data : Bytes} (hi : i < maxBytes bits)
    (h : decodeFrom bits i data = .error .truncated) :
    ∃ n < 2 ^ (bits - 7 * i), n ≠ 0 ∧ ∃ more, more ≠ [] ∧ encode n = data ++ more := by
  induction data generalizing i with
  | nil =>
    have hroom : bits - 7 * i ≠ 0 := by
      unfold maxBytes at hi
      omega
    refine ⟨1, Nat.one_lt_two_pow hroom, by omega, [1], by simp, ?_⟩
    exact encode_of_lt (by omega)
  | cons b rest ih =>
    obtain ⟨hb, hmore, hrest⟩ := decodeFrom_cons_truncated.mp h
    have hi' : i + 1 < maxBytes bits := by omega
    obtain ⟨high, hhigh, hzero, more, hne, hcode⟩ := ih hi' hrest
    have hlt := b.toNat_lt
    have hgroup := two_pow_room hi'
    refine ⟨b.toNat - 128 + 128 * high, by omega, by omega, more, hne, ?_⟩
    rw [encode_cons hb hzero, hcode, List.cons_append]

theorem decodeFrom_append {bits i : Nat} {data : Bytes}
    (h : decodeFrom bits i data ≠ .error .truncated) (more : Bytes) :
    decodeFrom bits i (data ++ more) = decodeFrom bits i data := by
  induction data generalizing i with
  | nil => exact absurd rfl h
  | cons b rest ih =>
    rw [List.cons_append]
    by_cases hmore : 128 ≤ b.toNat ∧ i + 1 ≠ maxBytes bits
    · have hrest : decodeFrom bits (i + 1) rest ≠ .error .truncated := fun hr =>
        h (decodeFrom_cons_truncated.mpr ⟨hmore.1, hmore.2, hr⟩)
      rw [decodeFrom_cons_of_more hmore.1 hmore.2, decodeFrom_cons_of_more hmore.1 hmore.2,
        ih hrest]
    · rw [(decodeFrom_cons_of_last hmore _).1, (decodeFrom_cons_of_last hmore rest).1]

theorem decodeFrom_truncated_le {bits i : Nat} {data : Bytes}
    (h : decodeFrom bits i data = .error .truncated) : ∀ b ∈ data, 128 ≤ b.toNat := by
  induction data generalizing i with
  | nil => simp
  | cons b rest ih =>
    obtain ⟨hb, _, hrest⟩ := decodeFrom_cons_truncated.mp h
    exact List.forall_mem_cons.mpr ⟨hb, ih hrest⟩

/-- A decoder asks for more bytes just when those it has are the beginning of a number below the
limit, but not all of it. -/
theorem decode_eq_truncated {bits : Nat} (hbits : 0 < bits) {data : Bytes} :
    decode bits data = .error .truncated ↔
      ∃ n < 2 ^ bits, data <+: encode n ∧ data ≠ encode n := by
  constructor
  · intro h
    obtain ⟨n, hn, _, more, hne, hcode⟩ := exists_of_truncated (maxBytes_pos hbits) h
    refine ⟨n, hn, ⟨more, hcode.symm⟩, fun heq => hne ?_⟩
    rwa [heq, List.self_eq_append_right] at hcode
  · rintro ⟨n, hn, ⟨more, hcode⟩, hne⟩
    by_contra h
    have hwhole := decodeFrom_append h more
    have hread := (decode_eq_ok hbits).mpr ⟨hn, rfl, List.prefix_rfl⟩
    rw [hcode] at hwhole
    have hused := (decode_used (hwhole.symm.trans hread)).2
    rw [← hcode, List.length_append] at hused
    exact hne (by rw [← hcode, List.eq_nil_of_length_eq_zero (by omega : more.length = 0),
      List.append_nil])

end TamperEvident.Varint
