import Mathlib.Data.Nat.Bitwise
import TamperEvident.Proofs.Varint
import TamperEvident.Varint.Word

/-! What is written and read in machine words is what is written and read as
numbers: groups are cut off and put back without a bit being lost, up to the last
byte that a width allows. -/

namespace TamperEvident.Varint

section Bits

theorem toNat_shiftRight_seven (value : UInt64) : (value >>> 7).toNat = value.toNat / 128 := by
  rw [UInt64.toNat_shiftRight]
  exact Nat.shiftRight_eq_div_pow value.toNat 7

theorem toNat_group (value : UInt64) : ((value &&& 127).toUInt8).toNat = value.toNat % 128 := by
  have hlow : value.toNat &&& 127 = value.toNat % 128 :=
    Nat.and_two_pow_sub_one_eq_mod value.toNat 7
  rw [UInt64.toNat_toUInt8, UInt64.toNat_and]
  change (value.toNat &&& 127) % 2 ^ 8 = _
  omega

theorem toNat_or_high {group : UInt8} (h : group.toNat < 128) :
    (group ||| 128).toNat = group.toNat + 128 := by
  have hor : 128 + group.toNat = 128 ||| group.toNat := Nat.two_pow_add_eq_or_of_lt (i := 7) h 1
  rw [UInt8.toNat_or, Nat.or_comm, Nat.add_comm]
  exact hor.symm

theorem toNat_payload (b : UInt8) : (payload b).toNat = b.toNat % 128 := by
  rw [payload, UInt8.toNat_toUInt64, UInt8.toNat_and]
  exact Nat.and_two_pow_sub_one_eq_mod b.toNat 7

theorem and_high_eq_zero (b : UInt8) : b &&& 128 = 0 ↔ b.toNat < 128 := by
  have hb := b.toNat_lt
  have hand : b.toNat &&& 128 = (b.toNat.testBit 7).toNat * 128 := Nat.and_two_pow b.toNat 7
  have hbit : b.toNat.testBit 7 = decide (128 ≤ b.toNat) := by
    rw [Nat.testBit_eq_decide_div_mod_eq]
    congr 1
    exact propext (by omega)
  rw [← UInt8.toNat_inj, UInt8.toNat_and]
  change b.toNat &&& 128 = 0 ↔ _
  rw [hand, hbit]
  by_cases h : b.toNat < 128
  · simp [h, Nat.not_le.mpr h]
  · simp [h, Nat.le_of_not_lt h]

end Bits

theorem appendTo_eq (buffer : Bytes) (value : UInt64) :
    appendTo buffer value = buffer ++ encode value.toNat := by
  fun_induction appendTo buffer value with
  | case1 buffer value group high hlast =>
    have hhigh : value.toNat / 128 = 0 := by
      rw [← toNat_shiftRight_seven]
      exact congrArg UInt64.toNat hlast
    have hsmall : value.toNat < 128 := by omega
    have hgroup : group = UInt8.ofNat value.toNat := by
      rw [← UInt8.toNat_inj, toNat_group, toNat_ofNat_of_lt (by omega), Nat.mod_eq_of_lt hsmall]
    rw [encode_of_lt hsmall, hgroup]
  | case2 buffer value group high hmore ih =>
    have hhigh : high.toNat = value.toNat / 128 := toNat_shiftRight_seven value
    have hne : high.toNat ≠ 0 := fun h => hmore (UInt64.toNat_inj.mp h)
    have hgroup : group.toNat = value.toNat % 128 := toNat_group value
    have hbyte : group ||| 128 = UInt8.ofNat (value.toNat % 128 + 128) := by
      rw [← UInt8.toNat_inj, toNat_or_high (by omega), toNat_ofNat_of_lt (by omega), hgroup]
    have hlarge : 128 ≤ value.toNat := by omega
    rw [ih, hhigh, hbyte, encode_of_le hlarge, List.append_assoc, List.singleton_append]

/-- A group goes above those that are there, and what is in the word stays as it is. -/
theorem toNat_or_shiftLeft {value group : UInt64} {shift : Nat} (hshift : shift < 64)
    (hvalue : value.toNat < 2 ^ shift) (hroom : group.toNat * 2 ^ shift < 2 ^ 64) :
    (value ||| group <<< UInt64.ofNat shift).toNat = value.toNat + 2 ^ shift * group.toNat := by
  have hword : (UInt64.ofNat shift).toNat % 64 = shift := by
    rw [UInt64.toNat_ofNat_of_lt' (Nat.lt_trans hshift (by decide)), Nat.mod_eq_of_lt hshift]
  have hor := Nat.two_pow_add_eq_or_of_lt hvalue group.toNat
  rw [UInt64.toNat_or, UInt64.toNat_shiftLeft, hword, Nat.shiftLeft_eq, Nat.mod_eq_of_lt hroom,
    Nat.or_comm, Nat.mul_comm, ← hor, Nat.add_comm]

section Gather

variable {bits i : Nat} {value : UInt64} {b : UInt8} {rest : Bytes}

theorem shift_lt (hbits : bits ≤ 64) (hi : i < maxBytes bits) : 7 * i < 64 := by
  unfold maxBytes at hi
  omega

theorem group_room (hbits : bits ≤ 64) (hi : i < maxBytes bits) {group : Nat}
    (hgroup : group < 128) (hlast : i + 1 = maxBytes bits → group < 2 ^ (bits - 7 * i)) :
    group * 2 ^ (7 * i) < 2 ^ 64 := by
  unfold maxBytes at hi hlast
  by_cases hend : i + 1 = (bits + 6) / 7
  · have hpow : 2 ^ (bits - 7 * i) * 2 ^ (7 * i) = 2 ^ bits := by
      rw [← Nat.pow_add, Nat.sub_add_cancel (by omega)]
    calc group * 2 ^ (7 * i) < 2 ^ (bits - 7 * i) * 2 ^ (7 * i) :=
          Nat.mul_lt_mul_of_pos_right (hlast hend) (Nat.two_pow_pos _)
      _ = 2 ^ bits := hpow
      _ ≤ 2 ^ 64 := Nat.pow_le_pow_right (by omega) hbits
  · calc group * 2 ^ (7 * i) < 2 ^ 7 * 2 ^ (7 * i) :=
          Nat.mul_lt_mul_of_pos_right hgroup (Nat.two_pow_pos _)
      _ = 2 ^ (7 + 7 * i) := (Nat.pow_add 2 7 (7 * i)).symm
      _ ≤ 2 ^ 64 := Nat.pow_le_pow_right (by omega) (by omega)

theorem shiftRight_ne_zero {group : UInt64} (hend : i + 1 = maxBytes bits) :
    group >>> UInt64.ofNat (bits - 7 * i) ≠ 0 ↔ 2 ^ (bits - 7 * i) ≤ group.toNat := by
  unfold maxBytes at hend
  have hword : (UInt64.ofNat (bits - 7 * i)).toNat % 64 = bits - 7 * i := by
    rw [UInt64.toNat_ofNat_of_lt' (show bits - 7 * i < 2 ^ 64 by omega)]
    omega
  rw [ne_eq, ← UInt64.toNat_inj, UInt64.toNat_shiftRight, hword, Nat.shiftRight_eq_div_pow]
  change ¬ group.toNat / 2 ^ (bits - 7 * i) = 0 ↔ _
  rw [Nat.div_eq_zero_iff_lt (Nat.two_pow_pos _), Nat.not_lt]

theorem gather_cons : gather bits i value (b :: rest) =
    if i + 1 = maxBytes bits ∧ 128 ≤ b.toNat then .error (.overlong (maxBytes bits))
    else if i + 1 = maxBytes bits ∧ 2 ^ (bits - 7 * i) ≤ b.toNat then .error (.overflow bits)
    else if b.toNat < 128 then
      if b.toNat = 0 ∧ 0 < i then .error .nonMinimal
      else .ok (value ||| payload b <<< UInt64.ofNat (7 * i), i + 1)
    else gather bits (i + 1) (value ||| payload b <<< UInt64.ofNat (7 * i)) rest := by
  have hhigh : b &&& 128 ≠ 0 ↔ 128 ≤ b.toNat := by
    rw [ne_eq, and_high_eq_zero, Nat.not_lt]
  have hzero : b = 0 ↔ b.toNat = 0 := UInt8.toNat_inj.symm
  rw [gather]
  simp only [hhigh, and_high_eq_zero, hzero]
  by_cases hoverlong : i + 1 = maxBytes bits ∧ 128 ≤ b.toNat
  · rw [if_pos hoverlong, if_pos hoverlong]
  have hspare : (i + 1 = maxBytes bits ∧ payload b >>> UInt64.ofNat (bits - 7 * i) ≠ 0) ↔
      i + 1 = maxBytes bits ∧ 2 ^ (bits - 7 * i) ≤ b.toNat := by
    refine and_congr_right fun hend => ?_
    rw [shiftRight_ne_zero hend, toNat_payload, Nat.mod_eq_of_lt (by omega)]
  simp only [if_neg hoverlong, hspare]

/-- Each byte adds its group to those before it, so the sum that the reader of numbers makes from
the end is the one in the word. -/
theorem gather_eq (hbits : bits ≤ 64) (hi : i < maxBytes bits) (hvalue : value.toNat < 2 ^ (7 * i))
    (data : Bytes) :
    gather bits i value data = (decodeFrom bits i data).map fun reading =>
      (UInt64.ofNat (value.toNat + 2 ^ (7 * i) * reading.1), i + reading.2) := by
  induction data generalizing i value with
  | nil => rfl
  | cons b rest ih =>
    have hb := b.toNat_lt
    have hgroup := toNat_payload b
    rw [gather_cons, decodeFrom]
    by_cases hoverlong : i + 1 = maxBytes bits ∧ 128 ≤ b.toNat
    · rw [if_pos hoverlong, if_pos hoverlong]
      rfl
    rw [if_neg hoverlong, if_neg hoverlong]
    by_cases hoverflow : i + 1 = maxBytes bits ∧ 2 ^ (bits - 7 * i) ≤ b.toNat
    · rw [if_pos hoverflow, if_pos hoverflow]
      rfl
    rw [if_neg hoverflow, if_neg hoverflow]
    have hroom := group_room hbits hi (by omega : (payload b).toNat < 128) (by omega)
    have hjoined := toNat_or_shiftLeft (shift_lt hbits hi) hvalue hroom
    generalize value ||| payload b <<< UInt64.ofNat (7 * i) = joined at hjoined ⊢
    by_cases hlast : b.toNat < 128
    · rw [Nat.mod_eq_of_lt hlast] at hgroup
      rw [if_pos hlast, if_pos hlast, apply_ite (Except.map _), Except.map, Except.map, ← hgroup,
        ← hjoined, UInt64.ofNat_toNat]
    · have hgroup' : (payload b).toNat = b.toNat - 128 := by omega
      have hpow : 2 ^ (7 * (i + 1)) = 2 ^ (7 * i) * 128 := Nat.pow_add 2 (7 * i) 7
      have hbound : joined.toNat < 2 ^ (7 * (i + 1)) := by
        have hle := Nat.mul_le_mul_left (2 ^ (7 * i)) (show (payload b).toNat ≤ 127 by omega)
        omega
      rw [if_neg hlast, if_neg hlast, ih (by omega) hbound]
      cases decodeFrom bits (i + 1) rest with
      | error e => rfl
      | ok reading =>
        have hsum : joined.toNat + 2 ^ (7 * (i + 1)) * reading.1 =
            value.toNat + 2 ^ (7 * i) * (b.toNat - 128 + 128 * reading.1) := by
          rw [hjoined, hpow, hgroup', Nat.mul_add, Nat.mul_assoc, Nat.add_assoc]
        have hused : i + 1 + reading.2 = i + (reading.2 + 1) := by omega
        simp only [Except.map, hsum, hused]

theorem gather_eq_decode (hpos : 0 < bits) (hbits : bits ≤ 64) (data : Bytes) :
    gather bits 0 0 data =
      (decode bits data).map fun reading => (UInt64.ofNat reading.1, reading.2) := by
  have hgather := @gather_eq bits 0 0 hbits (maxBytes_pos hpos) (Nat.two_pow_pos _) data
  simpa only [decode, Nat.mul_zero, Nat.pow_zero, Nat.one_mul, Nat.zero_add, UInt64.toNat_zero]
    using hgather

end Gather

theorem decode64_eq (data : Bytes) :
    decode64 data = (decode 64 data).map fun reading => (UInt64.ofNat reading.1, reading.2) :=
  gather_eq_decode (by decide) (Nat.le_refl 64) data

theorem decode32_eq (data : Bytes) :
    decode32 data = (decode 32 data).map fun reading => (UInt32.ofNat reading.1, reading.2) := by
  rw [decode32, gather_eq_decode (by decide) (by decide)]
  cases h : decode 32 data with
  | error e => rfl
  | ok reading =>
    obtain ⟨value, used⟩ := reading
    have hvalue := ((decode_eq_ok (by decide)).mp h).1
    have hword : (UInt64.ofNat value).toNat = value :=
      UInt64.toNat_ofNat_of_lt' (Nat.lt_trans hvalue (by decide))
    have hnarrow : (UInt64.ofNat value).toUInt32 = UInt32.ofNat value := by
      rw [← UInt32.toNat_inj, UInt64.toNat_toUInt32, hword, UInt32.toNat_ofNat']
    simp only [Except.map, bind, Except.bind, hword, hvalue, if_true, hnarrow]
    rfl

theorem decode64_eq_ok {data : Bytes} {value : UInt64} {used : Nat} :
    decode64 data = .ok (value, used) ↔ decode 64 data = .ok (value.toNat, used) := by
  rw [decode64_eq, map_eq_ok]
  constructor
  · rintro ⟨⟨n, used⟩, h, heq⟩
    obtain ⟨rfl, rfl⟩ := Prod.mk.inj heq
    rwa [UInt64.toNat_ofNat_of_lt' ((decode_eq_ok (by decide)).mp h).1]
  · intro h
    exact ⟨_, h, by rw [UInt64.ofNat_toNat]⟩

theorem decode32_eq_ok {data : Bytes} {value : UInt32} {used : Nat} :
    decode32 data = .ok (value, used) ↔ decode 32 data = .ok (value.toNat, used) := by
  rw [decode32_eq, map_eq_ok]
  constructor
  · rintro ⟨⟨n, used⟩, h, heq⟩
    obtain ⟨rfl, rfl⟩ := Prod.mk.inj heq
    rwa [UInt32.toNat_ofNat_of_lt' ((decode_eq_ok (by decide)).mp h).1]
  · intro h
    exact ⟨_, h, by rw [UInt32.ofNat_toNat]⟩

/-- A number is read just when it is below the limit of the width and stands at the front in the
form it is written in, which is as long as its size says and goes behind whatever the buffer holds.
More bytes are asked for just when such a form is begun and not ended, so nothing after a last byte
matters. The readers of words give what the reader of numbers gives, and the narrower one reads what
the wider one reads below its limit. -/
theorem decode_exact {bits : Nat} (hbits : 0 < bits) :
    (∀ (data : Bytes) (value used : Nat), decode bits data = .ok (value, used) ↔
      value < 2 ^ bits ∧ used = size value ∧ encode value <+: data) ∧
    (∀ (buffer : Bytes) (value : UInt64), appendTo buffer value = buffer ++ encode value.toNat ∧
      (encode value.toNat).length = size value.toNat) ∧
    (∀ data : Bytes, decode bits data = .error .truncated ↔
      ∃ value < 2 ^ bits, data <+: encode value ∧ data ≠ encode value) ∧
    (∀ (front : Bytes) (last : UInt8) (rest : Bytes), last.toNat < 128 →
      decode bits (front ++ last :: rest) = decode bits (front ++ [last])) ∧
    (∀ data : Bytes,
      decode64 data =
        (decode 64 data).map (fun reading => (UInt64.ofNat reading.1, reading.2)) ∧
      decode32 data =
        (decode 32 data).map (fun reading => (UInt32.ofNat reading.1, reading.2))) ∧
    ∀ (data : Bytes) (value : UInt32) (used : Nat), decode32 data = .ok (value, used) ↔
      ∃ wide : UInt64, decode64 data = .ok (wide, used) ∧ wide.toNat < 2 ^ 32 ∧
        value.toNat = wide.toNat := by
  refine ⟨fun data value used => ?_,
    fun buffer value => ⟨appendTo_eq buffer value, length_encode _⟩,
    fun data => decode_eq_truncated hbits, fun front last rest hlast => ?_,
    fun data => ⟨decode64_eq data, decode32_eq data⟩, fun data value used => ?_⟩
  · rw [decode_eq_ok hbits, length_encode]
  · have hsplit : front ++ last :: rest = (front ++ [last]) ++ rest := by simp
    have hended : decode bits (front ++ [last]) ≠ .error .truncated := by
      intro h
      have hall := decodeFrom_truncated_le h last (by simp)
      omega
    rw [hsplit]
    exact decodeFrom_append hended rest
  · simp only [decode32_eq_ok, decode64_eq_ok, decode_eq_ok (show 0 < 32 by decide),
      decode_eq_ok (show 0 < 64 by decide)]
    constructor
    · rintro ⟨hvalue, hused, hfront⟩
      have hwide : value.toUInt64.toNat = value.toNat := UInt32.toNat_toUInt64 value
      exact ⟨value.toUInt64, by rw [hwide]; exact ⟨by omega, hused, hfront⟩, by omega, hwide.symm⟩
    · rintro ⟨wide, ⟨_, hused, hfront⟩, hwide, heq⟩
      rw [heq]
      exact ⟨hwide, hused, hfront⟩

/-- The largest number of 32 bits takes four of the seven bits of its fifth byte. With one more of
them there is a number only for the wider word. -/
theorem decode_exact_largest :
    0 < 32 ∧ decode 32 [255, 255, 255, 255, 15, 0] = .ok (2 ^ 32 - 1, 5) ∧
    decode 32 [255, 255, 255, 255] = .error .truncated ∧
    decode64 [255, 255, 255, 255, 16] = .ok (4563402751, 5) ∧
    ∀ value used, decode32 [255, 255, 255, 255, 16] ≠ .ok (value, used) := by
  obtain ⟨hread, _, htruncated, _, _, hnarrow⟩ := decode_exact (show 0 < 32 by decide)
  have hcode : encode (2 ^ 32 - 1) = [255, 255, 255, 255, 15] := by cbv
  have hwide : decode64 [255, 255, 255, 255, 16] = .ok (4563402751, 5) := by decide +kernel
  refine ⟨by decide, (hread _ _ _).mpr ⟨by decide, by decide, ?_⟩,
    (htruncated _).mpr ⟨2 ^ 32 - 1, by decide, ?_⟩, hwide, fun value used h => ?_⟩
  · rw [hcode]
    exact List.prefix_append _ [0]
  · rw [hcode]
    exact ⟨List.prefix_append _ [15], by decide⟩
  · obtain ⟨wide, hread64, hlt, _⟩ := (hnarrow _ _ _).mp h
    obtain ⟨rfl, _⟩ := Prod.mk.inj (Except.ok.inj (hwide.symm.trans hread64))
    exact absurd hlt (by decide)

end TamperEvident.Varint
