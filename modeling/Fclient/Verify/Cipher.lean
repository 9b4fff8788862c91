import Fclient.Base.Fits
import Fclient.Native.Cipher

/-!
# What `encrypt` and `decrypt` compute

The buffer the block loop of `encrypt` finds (`fillBuffer_*`): the data, then the bytes the padding
loop stores, and the prior heap content at every other offset. `encrypt_spec` and `decrypt_spec`
give the two functions on the inputs their guards admit, with the 32-bit sizes as integers and the
block loops as `Memory.mapBlocks`.
-/

namespace Fclient.Verify

open Base Native

/-! ## The loops -/

/-- The offsets `i * 8` of the block loops do not wrap. -/
theorem toInt_blockOffset {i : Nat} (h : i * 8 < 2 ^ 31) :
    (blockOffset i).toInt = (i : Int) * (8 : Nat) := by
  have hi : (Int32.ofNat i).toInt = i := toInt_ofNat_of_fits (by omega)
  have h8 : (8 : Int32).toInt = 8 := rfl
  unfold blockOffset
  rw [toInt_mul_of_fits (by rw [hi, h8]; exact ⟨by omega, by omega⟩), hi, h8]
  rfl

theorem toInt_padOffset {dsz : JInt} (h0 : 0 ≤ dsz.toInt) {i : Nat}
    (hfit : dsz.toInt + i < 2 ^ 31) : (padOffset dsz i).toInt = dsz.toInt + i := by
  have hi : (Int32.ofNat i).toInt = i := toInt_ofNat_of_fits (by omega)
  unfold padOffset
  rw [toInt_add_of_fits, hi]
  rw [hi]
  exact ⟨by omega, by omega⟩

/-- The block loop on integers. -/
theorem cryptLoop_eq (f : Block → Block) (cn : JInt) (buf : Memory UInt8)
    (h : cn.toInt * 8 < 2 ^ 31) :
    cryptLoop f cn buf = Memory.mapBlocks f buf cn.toInt.toNat := by
  rw [← Memory.blockLoop_eq, Int32.toNat_toInt]
  have hbound : cn.toNatClampNeg * 8 ≤ 2 ^ 31 := by
    have := Int32.toNat_toInt cn
    omega
  unfold cryptLoop
  generalize cn.toNatClampNeg = cnt at hbound
  induction cnt with
  | zero => rfl
  | succ cnt ih =>
    rw [List.range_succ, List.foldl_append, ih (by omega)]
    simp only [List.foldl_cons, List.foldl_nil, toInt_blockOffset (by omega : cnt * 8 < 2 ^ 31)]
    rfl

theorem toInt_residue {dsz : JInt} (h : 0 ≤ dsz.toInt) : (residue dsz).toInt = dsz.toInt % 8 :=
  toInt_mod_of_nonneg h 8

theorem toInt_blockCount {sz : JInt} (h : 0 ≤ sz.toInt) : (blockCount sz).toInt = sz.toInt / 8 :=
  toInt_div_of_nonneg h (by decide)

/-- The loop over the blocks of a buffer of `sz` bytes. -/
theorem cryptLoop_size {sz : JInt} {n : Nat} (h : sz.toInt = n) (f : Block → Block)
    (buf : Memory UInt8) : cryptLoop f (blockCount sz) buf = Memory.mapBlocks f buf (n / 8) := by
  have hlt := sz.toInt_lt
  have hcn : (blockCount sz).toInt = (n / 8 : Nat) := by
    rw [toInt_blockCount (by omega), h]
    rfl
  rw [cryptLoop_eq f _ buf (by omega), hcn, Int.toNat_natCast]

/-- The cells the padding loop stores to, entered with `i`: `dsz + rst + 1`, …, `dsz + i`. -/
theorem padLoop_apply {dsz rst : JInt} (hdsz : 0 ≤ dsz.toInt) (hrst : 0 ≤ rst.toInt) (c : Int)
    {i : Nat} (buf : Memory UInt8) (hi : i < 8) (hfit : dsz.toInt + i < 2 ^ 31) :
    padLoop dsz rst i buf c =
      if dsz.toInt + rst.toInt < c ∧ c ≤ dsz.toInt + i then rst.toUInt32.toUInt8 else buf c := by
  induction i generalizing buf with
  | zero =>
    rw [if_neg (by omega)]
    rfl
  | succ i ih =>
    have hcast : (Int32.ofNat (i + 1)).toInt = (i + 1 : Nat) := toInt_ofNat_of_fits (by omega)
    simp only [padLoop, Int32.lt_iff_toInt_lt, hcast, toInt_padOffset hdsz hfit]
    split
    · rw [ih _ (by omega) (by omega), Memory.store_apply]
      split_ifs <;> first | rfl | omega
    · rw [if_neg (by omega)]

/-! ## Sizes -/

def cipherSize (n : Nat) : Nat := n + 8 - n % 8

theorem cipherSize_mod (n : Nat) : cipherSize n % 8 = 0 := by unfold cipherSize; omega

theorem not_le_zero_iff {dsz : JInt} : ¬ dsz ≤ 0 ↔ 0 < dsz.toInt := by
  have h0 : (0 : Int32).toInt = 0 := rfl
  rw [Int32.le_iff_toInt_le, h0]
  omega

/-- The lengths that the guard of `decrypt` admits. -/
theorem admitted_iff {dsz : JInt} :
    ¬ (dsz ≤ 0 ∨ dsz % 8 ≠ 0) ↔ 0 < dsz.toInt ∧ dsz.toInt % 8 = 0 := by
  have h0 : (0 : Int32).toInt = 0 := rfl
  rw [not_or, not_le_zero_iff, ne_eq, not_not, ← Int32.toInt_inj, h0]
  refine and_congr_right fun hpos => ?_
  have hmod : (dsz % 8).toInt = dsz.toInt % 8 := toInt_residue (by omega)
  rw [hmod]

theorem toInt_encryptSize {dsz : JInt} (h0 : 0 ≤ dsz.toInt) (hfit : dsz.toInt + 8 < 2 ^ 31) :
    (encryptSize dsz).toInt = dsz.toInt + 8 - dsz.toInt % 8 := by
  have h8 : (8 : Int32).toInt = 8 := rfl
  have hrst := toInt_residue h0
  have hadd : (dsz + 8).toInt = dsz.toInt + 8 :=
    toInt_add_of_fits (by rw [h8]; exact ⟨by omega, by omega⟩)
  unfold encryptSize
  rw [toInt_sub_of_fits, hadd, hrst]
  rw [hadd, hrst]
  exact ⟨by omega, by omega⟩

theorem toInt_lastOffset {dsz : JInt} (h : 0 < dsz.toInt) :
    (lastOffset dsz).toInt = dsz.toInt - 1 := by
  have h1 : (1 : Int32).toInt = 1 := rfl
  have hlt := dsz.toInt_lt
  unfold lastOffset
  rw [toInt_sub_of_fits, h1]
  rw [h1]
  exact ⟨by omega, by omega⟩

theorem toInt_sub_eight {dsz : JInt} (h : 8 ≤ dsz.toInt) : (dsz - 8).toInt = dsz.toInt - 8 := by
  have h8 : (8 : Int32).toInt = 8 := rfl
  have hlt := dsz.toInt_lt
  rw [toInt_sub_of_fits, h8]
  rw [h8]
  exact ⟨by omega, by omega⟩

section DecryptSize

variable {dsz : JInt} (h8 : 8 ≤ dsz.toInt) {t : UInt8}
include h8

theorem toInt_decryptSize_of_lt (h : dsz.toInt - 8 + t.toNat < 2 ^ 31) :
    (decryptSize dsz t).toInt = dsz.toInt - 8 + t.toNat := by
  have htl := t.toNat_lt
  have ht : (Int32.ofNat t.toNat).toInt = t.toNat := toInt_ofNat_of_fits (by omega)
  unfold decryptSize
  rw [toInt_add_of_fits, toInt_sub_eight h8, ht]
  rw [toInt_sub_eight h8, ht]
  exact ⟨by omega, h⟩

theorem toInt_decryptSize_of_ge (h : 2 ^ 31 ≤ dsz.toInt - 8 + t.toNat) :
    (decryptSize dsz t).toInt = dsz.toInt - 8 + t.toNat - 2 ^ 32 := by
  have htl := t.toNat_lt
  have ht : (Int32.ofNat t.toNat).toInt = t.toNat := toInt_ofNat_of_fits (by omega)
  unfold decryptSize
  rw [toInt_add_of_ge, toInt_sub_eight h8, ht]
  rwa [toInt_sub_eight h8, ht]

end DecryptSize

section Sizes

variable {data : JByteArray}

theorem not_size_le (h : 0 < data.bytes.length) : ¬ data.size ≤ 0 := by
  rw [not_le_zero_iff, data.toInt_size]
  omega

theorem toInt_rst (data : JByteArray) :
    (residue data.size).toInt = (data.bytes.length % 8 : Nat) := by
  have h := data.toInt_size
  rw [toInt_residue (by omega), h]
  rfl

theorem toInt_sz (h : data.bytes.length + 8 < 2 ^ 31) :
    (encryptSize data.size).toInt = cipherSize data.bytes.length := by
  have hsize := data.toInt_size
  unfold cipherSize
  rw [toInt_encryptSize (by omega) (by omega), hsize]
  omega

theorem toNat_rst (data : JByteArray) :
    ((residue data.size).toUInt32.toUInt8).toNat = data.bytes.length % 8 := by
  have h := toInt_rst data
  have hnat : (residue data.size).toUInt32.toNat = data.bytes.length % 8 := by
    rw [Int32.toNat_toUInt32_of_le, ← Int32.toNat_toInt, h]
    · rfl
    · rw [Int32.le_iff_toInt_le, h]
      exact Int.natCast_nonneg _
  rw [UInt32.toNat_toUInt8, hnat]
  omega

end Sizes

/-! ## The filled buffer -/

section FillBuffer

variable {data : JByteArray} (buf : Memory UInt8)

theorem fillBuffer_data {i : Nat} (h : i < data.elements.length) :
    fillBuffer data buf i = data.elements[i] :=
  Memory.storeList_of_lt _ _ h

/-- Behind the data: stored to are the offsets from `rst + 1` to `7`, the heap shows at the
others. -/
theorem fillBuffer_behind (hfit : data.bytes.length + 8 < 2 ^ 31) {c : Int}
    (h : data.bytes.length ≤ c) :
    fillBuffer data buf c =
      if data.bytes.length + (data.bytes.length % 8 : Nat) < c ∧ c ≤ data.bytes.length + 7 then
        UInt8.ofNat (data.bytes.length % 8)
      else buf c := by
  have hsize := data.toInt_size
  have hrst := toInt_rst data
  unfold fillBuffer
  rw [Memory.storeList_of_ge _ _ (by simpa using h),
    padLoop_apply (by omega) (by omega) c buf (by omega) (by omega), hsize, hrst]
  have hval : (residue data.size).toUInt32.toUInt8 = UInt8.ofNat (data.bytes.length % 8) := by
    apply UInt8.toNat_inj.1
    rw [toNat_rst, UInt8.toNat_ofNat']
    omega
  rw [hval]
  rfl

end FillBuffer

/-! ## Block strings -/

theorem loadBlock_storeList (buf : Memory UInt8) (l : List UInt8) {i : Nat}
    (h : i * 8 + 8 ≤ l.length) :
    Memory.loadBlock 8 (buf.storeList l) (i * (8 : Nat)) = blockOf l i := by
  funext k
  have hk : i * 8 + k.val < l.length := by omega
  have hcell : buf.storeList l ((i * 8 + k.val : Nat) : Int) = l[i * 8 + k.val] :=
    Memory.storeList_of_lt _ _ hk
  unfold blockOf
  rw [List.getD_eq_getElem?_getD, List.getElem?_eq_getElem hk, Option.getD_some, ← hcell]
  rfl

/-- The block loop over a buffer that holds `l` leaves `ecb f l` in it. -/
theorem read_mapBlocks_storeList (f : Block → Block) (buf : Memory UInt8) (l : List UInt8)
    (h : l.length % 8 = 0) :
    (Memory.mapBlocks f (buf.storeList l) (l.length / 8)).read l.length = ecb f l := by
  have hlen : l.length / 8 * 8 = l.length := by omega
  conv => lhs; arg 2; rw [← hlen]
  rw [Memory.read_mapBlocks _ _ (Nat.le_refl _)]
  unfold ecb
  rw [List.flatMap_def, List.flatMap_def]
  congr 1
  apply List.map_congr_left
  intro i hi
  rw [loadBlock_storeList _ _ (by have := List.mem_range.1 hi; omega)]

theorem length_ecb (f : Block → Block) {l : List UInt8} (h : l.length % 8 = 0) :
    (ecb f l).length = l.length := by
  rw [← read_mapBlocks_storeList f (fun _ => 0) l h, Memory.length_read]

/-! ## The two functions on admitted inputs -/

section Spec

variable {Ctx : Type} (lib : Des3 Ctx) (heap : Memory UInt8) {key data : JByteArray}
  (hkey : key.bytes.length = 16)

include hkey in
theorem size_key : key.size = 16 := by
  unfold JByteArray.size
  rw [hkey]
  rfl

include hkey in
theorem not_guard (hpos : 0 < data.bytes.length) : ¬ (key.size ≠ 16 ∨ data.size ≤ 0) := by
  rintro (h | h)
  · exact h (size_key hkey)
  · exact not_size_le hpos h

include hkey in
theorem encrypt_spec (hpos : 0 < data.bytes.length) (hfit : data.bytes.length + 8 < 2 ^ 31) :
    ∃ out, encrypt lib heap key data = .ok out ∧
      out.elements = (Memory.mapBlocks (lib.encBlock key) (fillBuffer data heap)
        (cipherSize data.bytes.length / 8)).read (cipherSize data.bytes.length) := by
  have hsz := toInt_sz hfit
  have hnonneg : 0 ≤ (encryptSize data.size).toInt := by omega
  obtain ⟨out, hok, hout⟩ := newByteArray_of_nonneg hnonneg
    (Memory.mapBlocks (lib.encBlock key) (fillBuffer data heap)
      (cipherSize data.bytes.length / 8))
  refine ⟨out, ?_, by rw [hout, hsz, Int.toNat_natCast]⟩
  unfold encrypt
  simp only [if_neg (not_guard hkey hpos)]
  rw [newUint8_of_nonneg hnonneg]
  simp only [bind, Except.bind]
  rw [cryptLoop_size hsz]
  exact hok

/-- The last byte of the decrypted data, from which `decrypt` computes the length it returns. -/
def trailer (key data : JByteArray) : UInt8 :=
  lib.decBlock key (blockOf data.elements (data.bytes.length / 8 - 1)) 7

theorem trailer_eq (hpos : 0 < data.bytes.length) (hmod : data.bytes.length % 8 = 0) :
    Memory.mapBlocks (lib.decBlock key) (Memory.storeList heap data.elements)
      (data.bytes.length / 8) ((data.bytes.length : Int) - 1) = trailer lib key data := by
  have hlast : (data.bytes.length : Int) - 1 =
      (data.bytes.length / 8 - 1 : Nat) * (8 : Nat) + (7 : Fin 8).val := by
    simp only [Fin.isValue, Fin.coe_ofNat_eq_mod]
    omega
  rw [hlast, Memory.mapBlocks_apply _ _ (by omega) (7 : Fin 8),
    loadBlock_storeList _ _ (by rw [data.length_elements]; omega)]
  rfl

include hkey in
/-- `decrypt` returns as many bytes as the trailer says, from the decrypted blocks and, where these
end before, from the memory behind the buffer. -/
theorem decrypt_spec (hpos : 0 < data.bytes.length) (hmod : data.bytes.length % 8 = 0) :
    decrypt lib heap key data =
      newByteArray (decryptSize data.size (trailer lib key data))
        (Memory.mapBlocks (lib.decBlock key) (Memory.storeList heap data.elements)
          (data.bytes.length / 8)) := by
  have hsize := data.toInt_size
  have hlt := data.size_lt
  have hadm : ¬ (data.size ≤ 0 ∨ data.size % 8 ≠ 0) := admitted_iff.2 ⟨by omega, by omega⟩
  have hguard : ¬ (key.size ≠ 16 ∨ data.size ≤ 0 ∨ data.size % 8 ≠ 0) := by
    rintro (h | h)
    · exact h (size_key hkey)
    · exact hadm h
  have hlast : (lastOffset data.size).toInt = (data.bytes.length : Int) - 1 := by
    rw [toInt_lastOffset (by omega), hsize]
  unfold decrypt
  simp only [if_neg hguard]
  rw [newUint8_of_nonneg (by omega)]
  simp only [bind, Except.bind]
  rw [cryptLoop_size hsize, hlast]
  exact congrArg (fun t : UInt8 => newByteArray (decryptSize data.size t) _)
    (trailer_eq lib heap hpos hmod)

/-- The length `decrypt` asks for: the integer sum, or a negative number where that wraps. -/
theorem toInt_decryptSize (hpos : 0 < data.bytes.length) (hmod : data.bytes.length % 8 = 0)
    (t : UInt8) :
    (decryptSize data.size t).toInt = data.bytes.length - 8 + t.toNat ∨
      (decryptSize data.size t).toInt < 0 ∧
        2 ^ 31 ≤ (data.bytes.length : Int) - 8 + t.toNat := by
  have hsize := data.toInt_size
  have hlt := data.size_lt
  have htl := t.toNat_lt
  by_cases hfit : data.size.toInt - 8 + t.toNat < 2 ^ 31
  · left
    rw [toInt_decryptSize_of_lt (by omega) hfit, hsize]
  · right
    rw [toInt_decryptSize_of_ge (by omega) (by omega)]
    exact ⟨by omega, by omega⟩

end Spec

end Fclient.Verify
