import Fclient.Native.Utf8
import Mathlib.Data.List.TakeWhile

/-!
# Modified UTF-8 loses nothing

Every code unit is read back from its bytes (`decodeUtf_encodeUtf`), so that two Java strings with
the same encoding are equal; and no byte of an encoding is zero, so that a C string function sees
all of it (`cString_encodeUtf`).
-/

namespace Fclient.Verify

open Native

/-! ## Six bits of a code unit -/

theorem leadTwo_bits : ∀ n < 32, ¬ (0xC0 ||| UInt8.ofNat n) < 0x80 ∧
    (0xC0 ||| UInt8.ofNat n) < 0xE0 ∧ (0xC0 ||| UInt8.ofNat n) &&& 0x1F = UInt8.ofNat n := by
  decide

theorem leadThree_bits : ∀ n < 16, ¬ (0xE0 ||| UInt8.ofNat n) < 0x80 ∧
    ¬ (0xE0 ||| UInt8.ofNat n) < 0xE0 ∧ (0xE0 ||| UInt8.ofNat n) &&& 0x0F = UInt8.ofNat n := by
  decide

theorem tail_bits : ∀ n < 64, (0x80 ||| UInt8.ofNat n) &&& 0x3F = UInt8.ofNat n := by decide

theorem lowBits_eq (c : JChar) : (c &&& 0x3F).toUInt8 = UInt8.ofNat (c.toNat % 64) := by
  apply UInt8.toNat_inj.1
  have h : (0x3F : UInt16).toNat = 2 ^ 6 - 1 := rfl
  rw [UInt16.toNat_toUInt8, UInt16.toNat_and, h, Nat.and_two_pow_sub_one_eq_mod,
    UInt8.toNat_ofNat']

theorem highBits_six (c : JChar) : (c >>> 6).toUInt8 = UInt8.ofNat (c.toNat / 64) := by
  apply UInt8.toNat_inj.1
  have h6 : (6 : UInt16).toNat % 16 = 6 := rfl
  rw [UInt16.toNat_toUInt8, UInt16.toNat_shiftRight, h6, Nat.shiftRight_eq_div_pow,
    UInt8.toNat_ofNat']

theorem middleBits (c : JChar) :
    ((c >>> 6) &&& 0x3F).toUInt8 = UInt8.ofNat (c.toNat / 64 % 64) := by
  have h6 : (6 : UInt16).toNat % 16 = 6 := rfl
  rw [lowBits_eq, UInt16.toNat_shiftRight, h6, Nat.shiftRight_eq_div_pow]

theorem highBits_twelve (c : JChar) : (c >>> 12).toUInt8 = UInt8.ofNat (c.toNat / 4096) := by
  apply UInt8.toNat_inj.1
  have h12 : (12 : UInt16).toNat % 16 = 12 := rfl
  rw [UInt16.toNat_toUInt8, UInt16.toNat_shiftRight, h12, Nat.shiftRight_eq_div_pow,
    UInt8.toNat_ofNat']

/-! ## Putting the bits back -/

theorem or_eq_add {m n k : Nat} (h : n < 2 ^ k) : m * 2 ^ k ||| n = m * 2 ^ k + n := by
  rw [← Nat.shiftLeft_eq, Nat.shiftLeft_add_eq_or_of_lt h]

theorem toNat_byte {n : Nat} (h : n < 256) : (UInt8.ofNat n).toUInt16.toNat = n := by
  rw [UInt8.toNat_toUInt16, UInt8.toNat_ofNat', Nat.mod_eq_of_lt h]

theorem toNat_six {n : Nat} (h : n < 64) : ((UInt8.ofNat n).toUInt16 <<< 6).toNat = n * 2 ^ 6 := by
  have h6 : (6 : UInt16).toNat % 16 = 6 := rfl
  rw [UInt16.toNat_shiftLeft, h6, toNat_byte (by omega), Nat.shiftLeft_eq,
    Nat.mod_eq_of_lt (by omega)]

theorem toNat_twelve {n : Nat} (h : n < 16) :
    ((UInt8.ofNat n).toUInt16 <<< 12).toNat = n * 2 ^ 12 := by
  have h12 : (12 : UInt16).toNat % 16 = 12 := rfl
  rw [UInt16.toNat_shiftLeft, h12, toNat_byte (by omega), Nat.shiftLeft_eq,
    Nat.mod_eq_of_lt (by omega)]

theorem join_two {c : JChar} (h : c.toNat < 0x800) :
    (UInt8.ofNat (c.toNat / 64)).toUInt16 <<< 6 ||| (UInt8.ofNat (c.toNat % 64)).toUInt16 = c := by
  apply UInt16.toNat_inj.1
  rw [UInt16.toNat_or, toNat_six (by omega), toNat_byte (by omega), or_eq_add (by omega)]
  omega

theorem join_three (c : JChar) :
    (UInt8.ofNat (c.toNat / 4096)).toUInt16 <<< 12 |||
      (UInt8.ofNat (c.toNat / 64 % 64)).toUInt16 <<< 6 |||
      (UInt8.ofNat (c.toNat % 64)).toUInt16 = c := by
  have hlt := c.toNat_lt
  apply UInt16.toNat_inj.1
  have hhigh : c.toNat / 4096 * 2 ^ 12 + c.toNat / 64 % 64 * 2 ^ 6 = c.toNat / 64 * 2 ^ 6 := by
    omega
  rw [UInt16.toNat_or, UInt16.toNat_or, toNat_twelve (by omega), toNat_six (by omega),
    toNat_byte (by omega), or_eq_add (by omega), hhigh, or_eq_add (by omega)]
  omega

/-! ## Code units and strings -/

theorem decodeUtf_one {b : UInt8} (h : b < 0x80) (rest : List UInt8) :
    decodeUtf (b :: rest) = b.toUInt16 :: decodeUtf rest := by
  rw [decodeUtf.eq_def (b :: rest)]
  exact if_pos h

theorem decodeUtf_two {b b₂ : UInt8} (h80 : ¬ b < 0x80) (hE0 : b < 0xE0) (rest : List UInt8) :
    decodeUtf (b :: b₂ :: rest) =
      ((b &&& 0x1F).toUInt16 <<< 6 ||| (b₂ &&& 0x3F).toUInt16) :: decodeUtf rest := by
  rw [decodeUtf.eq_def (b :: b₂ :: rest)]
  exact (if_neg h80).trans (if_pos hE0)

theorem decodeUtf_three {b b₂ b₃ : UInt8} (h80 : ¬ b < 0x80) (hE0 : ¬ b < 0xE0)
    (rest : List UInt8) : decodeUtf (b :: b₂ :: b₃ :: rest) =
      ((b &&& 0x0F).toUInt16 <<< 12 ||| (b₂ &&& 0x3F).toUInt16 <<< 6 |||
        (b₃ &&& 0x3F).toUInt16) :: decodeUtf rest := by
  rw [decodeUtf.eq_def (b :: b₂ :: b₃ :: rest)]
  exact (if_neg h80).trans (if_neg hE0)

theorem decodeUtf_encodeUnit (c : JChar) (rest : List UInt8) :
    decodeUtf (encodeUnit c ++ rest) = c :: decodeUtf rest := by
  have hlt := c.toNat_lt
  unfold encodeUnit
  split
  · rename_i h
    have hc : c.toNat < 0x80 := UInt16.lt_iff_toNat_lt.1 h.2
    have hbyte : c.toUInt8.toNat = c.toNat := by
      rw [UInt16.toNat_toUInt8, Nat.mod_eq_of_lt (by omega)]
    have hunit : c.toUInt8.toUInt16 = c := by
      apply UInt16.toNat_inj.1
      rw [UInt8.toNat_toUInt16, hbyte]
    rw [List.singleton_append, decodeUtf_one (UInt8.lt_iff_toNat_lt.2 (by rw [hbyte]; exact hc)),
      hunit]
  split
  · rename_i h
    have hc : c.toNat < 0x800 := UInt16.lt_iff_toNat_lt.1 h
    obtain ⟨h80, hE0, hlead⟩ := leadTwo_bits (c.toNat / 64) (by omega)
    have htail := tail_bits (c.toNat % 64) (by omega)
    rw [highBits_six, lowBits_eq, List.cons_append, List.singleton_append,
      decodeUtf_two h80 hE0, hlead, htail, join_two hc]
  · obtain ⟨h80, hE0, hlead⟩ := leadThree_bits (c.toNat / 4096) (by omega)
    have hmiddle := tail_bits (c.toNat / 64 % 64) (by omega)
    have htail := tail_bits (c.toNat % 64) (by omega)
    rw [highBits_twelve, middleBits, lowBits_eq, List.cons_append, List.cons_append,
      List.singleton_append, decodeUtf_three h80 hE0, hlead, hmiddle, htail, join_three]

/-- **Round trip.** -/
theorem decodeUtf_encodeUtf (s : JString) : decodeUtf (encodeUtf s) = s := by
  induction s with
  | nil => rfl
  | cons c s ih =>
    rw [encodeUtf, List.flatMap_cons, decodeUtf_encodeUnit]
    exact congrArg (c :: ·) ih

theorem encodeUtf_injective : Function.Injective encodeUtf :=
  Function.LeftInverse.injective decodeUtf_encodeUtf

theorem or_ne_zero {a : UInt8} (h : a ≠ 0) (b : UInt8) : a ||| b ≠ 0 := by
  intro h0
  have hnat := congrArg UInt8.toNat h0
  rw [UInt8.toNat_or] at hnat
  exact h (UInt8.toNat_inj.1 (Nat.or_eq_zero_iff.1 hnat).1)

theorem ne_zero_of_mem_encodeUnit {c : JChar} {b : UInt8} (h : b ∈ encodeUnit c) : b ≠ 0 := by
  unfold encodeUnit at h
  split at h
  · rename_i hone
    rintro rfl
    have hc : c.toNat < 0x80 := UInt16.lt_iff_toNat_lt.1 hone.2
    have hzero := congrArg UInt8.toNat (List.mem_singleton.1 h)
    rw [UInt16.toNat_toUInt8, Nat.mod_eq_of_lt (by omega)] at hzero
    exact hone.1 (UInt16.toNat_inj.1 hzero.symm)
  -- all bytes of the longer forms have their highest bit set
  split at h
  · simp only [List.mem_cons, List.not_mem_nil, or_false] at h
    rcases h with rfl | rfl
    · exact or_ne_zero (by decide) _
    · exact or_ne_zero (by decide) _
  · simp only [List.mem_cons, List.not_mem_nil, or_false] at h
    rcases h with rfl | rfl | rfl
    · exact or_ne_zero (by decide) _
    · exact or_ne_zero (by decide) _
    · exact or_ne_zero (by decide) _

/-- `strcmp` and the like see the whole string. -/
theorem cString_encodeUtf (s : JString) : cString (encodeUtf s) = encodeUtf s := by
  apply List.takeWhile_eq_self_iff.2
  intro b hb
  obtain ⟨c, -, hc⟩ := List.mem_flatMap.1 hb
  simpa using ne_zero_of_mem_encodeUnit hc

end Fclient.Verify
