import Fclient.Verify.Cipher
import Mathlib.Order.Bounds.Basic

/-!
# The sizes of the cipher in 32 bits

`encrypt` adds 8 to the length of the data before it takes the residue away, `decrypt` adds the
trailer to a length that may be close to the end of the range, and neither guard excludes the
lengths for which the sum wraps: `sizesExact_iff` says which these are. What becomes of the wrapped
size is an allocation that fails (`encrypt_ok_iff`) and a result array of negative length
(`decrypt_ok_iff`).
-/

namespace Fclient.Verify

open Base Native

/-- The sizes and offsets of `encrypt` are those of the integers, and the length of its result is
one that the guard of `decrypt` admits. -/
structure EncryptExact (dsz : JInt) : Prop where
  rst : (residue dsz).toInt = dsz.toInt % 8
  sum : (dsz + 8).toInt = dsz.toInt + 8
  sz : (encryptSize dsz).toInt = dsz.toInt + 8 - dsz.toInt % 8
  least : IsLeast {n : Int | dsz.toInt < n ∧ 8 ∣ n} (encryptSize dsz).toInt
  padOffset : ∀ i : Nat, i ≤ 7 → residue dsz < Int32.ofNat i →
    (padOffset dsz i).toInt = dsz.toInt + i
  cn : (blockCount (encryptSize dsz)).toInt = (dsz.toInt + 8 - dsz.toInt % 8) / 8
  blockOffset : ∀ i : Nat, i < (blockCount (encryptSize dsz)).toInt →
    (blockOffset i).toInt = (i : Int) * (8 : Nat)
  admitted : ¬ (encryptSize dsz ≤ 0 ∨ encryptSize dsz % 8 ≠ 0)

/-- The sizes and offsets of `decrypt` with the trailer `t` are those of the integers. -/
structure DecryptExact (dsz : JInt) (t : UInt8) : Prop where
  cn : (blockCount dsz).toInt = dsz.toInt / 8
  blockOffset : ∀ i : Nat, i < (blockCount dsz).toInt →
    (blockOffset i).toInt = (i : Int) * (8 : Nat)
  last : (lastOffset dsz).toInt = dsz.toInt - 1
  rest : (dsz - 8).toInt = dsz.toInt - 8
  sz : (decryptSize dsz t).toInt = dsz.toInt - 8 + t.toNat

/-- At the lengths that the guard of each of the two functions admits. -/
structure SizesExact (dsz : JInt) (t : UInt8) : Prop where
  encrypt : ¬ dsz ≤ 0 → EncryptExact dsz
  decrypt : ¬ (dsz ≤ 0 ∨ dsz % 8 ≠ 0) → DecryptExact dsz t

section Sizes

variable {dsz : JInt}

theorem isLeast_multiple_above (n : Int) : IsLeast {s : Int | n < s ∧ 8 ∣ s} (n + 8 - n % 8) := by
  constructor
  · exact ⟨by omega, by omega⟩
  · rintro s ⟨hlt, hdvd⟩
    omega

/-- Past the last length for which the sum fits, the residue brings the wrapped sum to the lower
end of the range. -/
theorem toInt_encryptSize_of_ge (h : 2 ^ 31 ≤ dsz.toInt + 8) :
    (encryptSize dsz).toInt = -2 ^ 31 := by
  have hlt := dsz.toInt_lt
  have hrst := @toInt_residue dsz (by omega)
  have hsum : (dsz + 8).toInt = dsz.toInt + 8 - 2 ^ 32 := toInt_add_of_ge h
  unfold encryptSize
  rw [toInt_sub_of_fits, hsum, hrst]
  · omega
  · rw [hsum, hrst]
    exact ⟨by omega, by omega⟩

theorem encryptExact (hpos : 0 < dsz.toInt) (hfit : dsz.toInt + 8 < 2 ^ 31) : EncryptExact dsz := by
  have h8 : (8 : Int32).toInt = 8 := rfl
  have hsz := toInt_encryptSize (by omega) hfit
  have hcn : (blockCount (encryptSize dsz)).toInt = (dsz.toInt + 8 - dsz.toInt % 8) / 8 := by
    rw [toInt_blockCount (by omega), hsz]
  exact {
    rst := toInt_residue (by omega)
    sum := toInt_add_of_fits ⟨by omega, by omega⟩
    sz := hsz
    least := by
      rw [hsz]
      exact isLeast_multiple_above _
    padOffset := fun i hi _ => toInt_padOffset (by omega) (by omega)
    cn := hcn
    blockOffset := by
      intro i hi
      rw [hcn] at hi
      exact toInt_blockOffset (by omega)
    admitted := by
      rw [admitted_iff, hsz]
      exact ⟨by omega, by omega⟩ }

theorem decryptExact (hpos : 0 < dsz.toInt) (hmod : dsz.toInt % 8 = 0) {t : UInt8}
    (hfit : dsz.toInt - 8 + t.toNat < 2 ^ 31) : DecryptExact dsz t := by
  have hlt := dsz.toInt_lt
  have hcn : (blockCount dsz).toInt = dsz.toInt / 8 := toInt_blockCount (by omega)
  exact {
    cn := hcn
    blockOffset := by
      intro i hi
      rw [hcn] at hi
      exact toInt_blockOffset (by omega)
    last := toInt_lastOffset hpos
    rest := toInt_sub_eight (by omega)
    sz := toInt_decryptSize_of_lt (by omega) hfit }

end Sizes

/-- **The sizes are exact** below the last eight lengths, for `encrypt`, and as long as the length
that `decrypt` computes is itself below `2 ^ 31`. -/
theorem sizesExact_iff (dsz : JInt) (t : UInt8) :
    SizesExact dsz t ↔
      (¬ dsz ≤ 0 → dsz.toInt < 2 ^ 31 - 8) ∧
        (¬ (dsz ≤ 0 ∨ dsz % 8 ≠ 0) → dsz.toInt - 8 + t.toNat < 2 ^ 31) := by
  constructor
  · intro h
    refine ⟨fun hguard => ?_, fun hguard => ?_⟩
    · have hpos := not_le_zero_iff.1 hguard
      have hsz := (h.encrypt hguard).sz
      by_contra hge
      rw [toInt_encryptSize_of_ge (by omega)] at hsz
      omega
    · obtain ⟨hpos, hmod⟩ := admitted_iff.1 hguard
      have hsz := (h.decrypt hguard).sz
      by_contra hge
      rw [toInt_decryptSize_of_ge (by omega) (by omega)] at hsz
      omega
  · rintro ⟨henc, hdec⟩
    refine ⟨fun hguard => ?_, fun hguard => ?_⟩
    · have hfit := henc hguard
      exact encryptExact (not_le_zero_iff.1 hguard) (by omega)
    · obtain ⟨hpos, hmod⟩ := admitted_iff.1 hguard
      exact decryptExact hpos hmod (hdec hguard)

/-- 2147483640 bytes of data: the buffer would have `-2 ^ 31` bytes. -/
theorem not_sizesExact_top : ¬ SizesExact 2147483640 0 := by
  intro h
  have hsz := (h.encrypt (by decide)).sz
  rw [toInt_encryptSize_of_ge (by decide)] at hsz
  exact absurd hsz (by decide)

/-! ## What the functions do with a wrapped size -/

section Outcome

variable {Ctx : Type} (lib : Des3 Ctx) (heap : Memory UInt8) {key data : JByteArray}
  (hkey : key.bytes.length = 16) (hpos : 0 < data.bytes.length)
include hkey hpos

theorem encrypt_overflow (h : 2 ^ 31 ≤ data.bytes.length + 8) :
    encrypt lib heap key data = .error (.badAlloc Int32.minValue) := by
  have hsize := data.toInt_size
  have hsz : encryptSize data.size = Int32.minValue := by
    rw [← Int32.toInt_inj, toInt_encryptSize_of_ge (by omega)]
    rfl
  unfold encrypt
  simp only [if_neg (not_guard hkey hpos), hsz]
  rfl

theorem encrypt_ok_iff :
    (∃ out, encrypt lib heap key data = .ok out) ↔ data.bytes.length + 8 < 2 ^ 31 := by
  constructor
  · rintro ⟨out, hout⟩
    by_contra hge
    rw [encrypt_overflow lib heap hkey hpos (by omega)] at hout
    cases hout
  · intro hfit
    obtain ⟨out, hout, -⟩ := encrypt_spec lib heap hkey hpos hfit
    exact ⟨out, hout⟩

theorem decrypt_ok_iff (hmod : data.bytes.length % 8 = 0) :
    (∃ out, decrypt lib heap key data = .ok out) ↔
      (data.bytes.length : Int) - 8 + (trailer lib key data).toNat < 2 ^ 31 := by
  have hsize := toInt_decryptSize hpos hmod (trailer lib key data)
  have hlt := (decryptSize data.size (trailer lib key data)).toInt_lt
  rw [decrypt_spec lib heap hkey hpos hmod, newByteArray_ok_iff]
  omega

end Outcome

end Fclient.Verify
