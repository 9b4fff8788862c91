import Fclient.Verify.Cipher
import Mathlib.Data.Finite.Prod
import Mathlib.Data.Fintype.Card
import Mathlib.Logic.Equiv.Basic

/-!
# Padding, trailer and heap content in the cipher

`encrypt` pads with the loop `for (int i = 7; i > rst; i--)`, which stores to the offsets `rst + 1`
to `7` behind the data instead of `0` to `7 - rst`. What follows from it:

* `decrypt_encrypt_iff`: the round trip works exactly when the last byte of the buffer is `rst`,
  because the loop stored it or by accident of the heap;
* `encrypt_eq_iff`: the ciphertext shows the heap content at the offsets of `Stale`, and there
  always are some.

`decrypt` takes its length from the last decrypted byte as it is: `decryptSafe_iff` says for which
ciphertexts the result stays inside the decrypted data.
-/

namespace Fclient.Verify

open Base Native

/-! ## Ciphers given by a table -/

/-- A block cipher with the listed plaintext and ciphertext blocks, under every key. -/
def tablePerm (pairs : List (Block × Block)) : Equiv.Perm Block :=
  pairs.foldr (fun p σ => (Equiv.swap p.1 p.2).trans σ) (Equiv.refl Block)

def tableDes3 (pairs : List (Block × Block)) : Des3 Bool where
  set2keyEnc _ := true
  set2keyDec _ := false
  cryptEcb enc b := if enc then tablePerm pairs b else (tablePerm pairs).symm b

theorem tableDes3_inverse (pairs : List (Block × Block)) : (tableDes3 pairs).Inverse :=
  fun _ b => (tablePerm pairs).symm_apply_apply b

/-- The key `0123456789ABCDEF0123456789ABCDE0`. -/
def sampleKey : JByteArray where
  bytes := [0x01, 0x23, 0x45, 0x67, 0x89, 0xAB, 0xCD, 0xEF,
    0x01, 0x23, 0x45, 0x67, 0x89, 0xAB, 0xCD, 0xE0].map UInt8.toInt8
  size_lt := by decide

/-- Triple DES under `sampleKey` on the blocks used below. -/
def sampleDes3 : Des3 Bool := tableDes3
  [(blockOf [0x01, 0x02, 0x03, 0x00, 0x00, 0x00, 0x00, 0x03] 0,
      blockOf [0xf8, 0x5d, 0xbf, 0x35, 0xfc, 0x7b, 0x77, 0xbc] 0),
    (blockOf [0x01, 0x02, 0x03, 0x04, 0x00, 0x00, 0x00, 0x00] 0,
      blockOf [0x11, 0x7c, 0x66, 0x2d, 0xc3, 0xfe, 0x40, 0x50] 0),
    (blockOf [0x01, 0x02, 0x03, 0x04, 0xff, 0xff, 0xff, 0xff] 0,
      blockOf [0x77, 0xb9, 0x55, 0x36, 0xe8, 0xb5, 0x34, 0x5e] 0),
    (blockOf [0x79, 0xc0, 0x51, 0x7d, 0x4c, 0x34, 0xea, 0x59] 0,
      blockOf [0x00, 0x00, 0x00, 0x00, 0x00, 0x00, 0x00, 0x00] 0)]

def sampleThree : JByteArray := ⟨[1, 2, 3], by decide⟩

def sampleFour : JByteArray := ⟨[1, 2, 3, 4], by decide⟩

/-! ## The offsets behind the data -/

/-- The offsets of the buffer that neither the copy nor the padding loop stores to. -/
def Stale (n : Nat) (c : Int) : Prop := n ≤ c ∧ c ≤ n + min (n % 8) (7 - n % 8)

theorem stale_first (n : Nat) : Stale n n := ⟨Int.le_refl _, by omega⟩

theorem Stale.lt_cipherSize {n : Nat} {c : Int} (h : Stale n c) : c < cipherSize n := by
  unfold Stale at h
  unfold cipherSize
  omega

section Behind

variable {data : JByteArray} (hfit : data.bytes.length + 8 < 2 ^ 31)

include hfit in
theorem fillBuffer_stale (heap : Memory UInt8) {c : Int} (h : Stale data.bytes.length c) :
    fillBuffer data heap c = heap c := by
  unfold Stale at h
  rw [fillBuffer_behind heap hfit (by omega), if_neg (by omega)]

include hfit in
theorem fillBuffer_congr {heap₁ heap₂ : Memory UInt8}
    (h : ∀ c, Stale data.bytes.length c → heap₁ c = heap₂ c) {c : Int} (h0 : 0 ≤ c)
    (hc : c < cipherSize data.bytes.length) :
    fillBuffer data heap₁ c = fillBuffer data heap₂ c := by
  unfold cipherSize at hc
  by_cases hdata : c < data.bytes.length
  · obtain ⟨i, rfl⟩ := Int.eq_ofNat_of_zero_le h0
    have hi : i < data.elements.length := by
      rw [data.length_elements]
      omega
    rw [fillBuffer_data heap₁ hi, fillBuffer_data heap₂ hi]
  · rw [fillBuffer_behind heap₁ hfit (by omega), fillBuffer_behind heap₂ hfit (by omega)]
    split
    · rfl
    · exact h c ⟨by omega, by omega⟩

include hfit in
/-- The last byte of the buffer is the residue of the length exactly when the loop reaches it or the
heap happens to hold the residue there. -/
theorem fillBuffer_last (heap : Memory UInt8) :
    (fillBuffer data heap (cipherSize data.bytes.length - 1 : Int)).toNat =
        data.bytes.length % 8 ↔
      data.bytes.length % 8 < 4 ∨
        (heap (data.bytes.length + 7 - data.bytes.length % 8)).toNat = data.bytes.length % 8 := by
  have hlast : (cipherSize data.bytes.length : Int) - 1 =
      data.bytes.length + 7 - data.bytes.length % 8 := by
    unfold cipherSize
    omega
  rw [hlast, fillBuffer_behind heap hfit (by omega)]
  split
  · rename_i hstored
    have hval : (UInt8.ofNat (data.bytes.length % 8)).toNat = data.bytes.length % 8 := by
      rw [UInt8.toNat_ofNat']
      omega
    exact iff_of_true hval (Or.inl (by omega))
  · rename_i hstored
    exact ⟨Or.inr, fun h => h.resolve_left (by omega)⟩

end Behind

/-! ## Round trip -/

section RoundTrip

variable {Ctx : Type} {lib : Des3 Ctx} (hinv : lib.Inverse) {key data : JByteArray}
  (hkey : key.bytes.length = 16) (hpos : 0 < data.bytes.length)
  (hfit : data.bytes.length + 8 < 2 ^ 31)

include hinv in
theorem mapBlocks_of_encrypt (heap : Memory UInt8) {buf : Memory UInt8} {n : Nat} (hn : n % 8 = 0)
    {l : List UInt8} (hl : l = (Memory.mapBlocks (lib.encBlock key) buf (n / 8)).read n) {c : Int}
    (h0 : 0 ≤ c) (hc : c < n) :
    Memory.mapBlocks (lib.decBlock key) (heap.storeList l) (n / 8) c = buf c := by
  have hagree : ∀ a : Int, 0 ≤ a → a < (n / 8 : Nat) * (8 : Nat) →
      heap.storeList l a = Memory.mapBlocks (lib.encBlock key) buf (n / 8) a := by
    intro a ha0 ha
    obtain ⟨i, rfl⟩ := Int.eq_ofNat_of_zero_le ha0
    subst hl
    have hi : i < ((Memory.mapBlocks (lib.encBlock key) buf (n / 8)).read n).length := by
      rw [Memory.length_read]
      omega
    exact (Memory.storeList_of_lt _ _ hi).trans (Memory.getElem_read _ hi)
  rw [Memory.mapBlocks_congr _ hagree h0 (by omega), Memory.mapBlocks_cancel _ (hinv key)]

include hinv hkey hpos hfit in
/-- What `decrypt` makes of a ciphertext: as many bytes of the padded buffer as its last byte
says. -/
theorem decrypt_encrypt_spec (heap heap' : Memory UInt8) :
    ∃ out buf, encrypt lib heap key data = .ok out ∧
      out.bytes.length = cipherSize data.bytes.length ∧
      decrypt lib heap' key out = newByteArray
        (decryptSize out.size (fillBuffer data heap (cipherSize data.bytes.length - 1 : Int))) buf ∧
      ∀ c : Int, 0 ≤ c → c < cipherSize data.bytes.length → buf c = fillBuffer data heap c := by
  have hmod := cipherSize_mod data.bytes.length
  have hle : 8 ≤ cipherSize data.bytes.length := by
    unfold cipherSize
    omega
  obtain ⟨out, hout, helements⟩ := encrypt_spec lib heap hkey hpos hfit
  have hlen : out.bytes.length = cipherSize data.bytes.length := by
    rw [← out.length_elements, helements, Memory.length_read]
  have hbuf : ∀ c : Int, 0 ≤ c → c < cipherSize data.bytes.length →
      Memory.mapBlocks (lib.decBlock key) (Memory.storeList heap' out.elements)
        (cipherSize data.bytes.length / 8) c = fillBuffer data heap c :=
    fun c => mapBlocks_of_encrypt hinv heap' hmod helements
  have htrailer := @trailer_eq _ lib heap' key out (by omega) (by omega)
  rw [hlen, hbuf _ (by omega) (by omega)] at htrailer
  refine ⟨out, _, hout, hlen, ?_, hbuf⟩
  rw [htrailer, decrypt_spec lib heap' hkey (by omega) (by omega), hlen]

include hinv hkey hpos hfit in
/-- **Round trip.** `decrypt` recovers the data from its ciphertext exactly when the padding loop
stored the last byte of the buffer, which it does for lengths of residue 0 to 3, or the heap held
the residue there before. -/
theorem decrypt_encrypt_iff (heap heap' : Memory UInt8) :
    (encrypt lib heap key data >>= decrypt lib heap' key) = .ok data ↔
      data.bytes.length % 8 < 4 ∨
        (heap (data.bytes.length + 7 - data.bytes.length % 8)).toNat = data.bytes.length % 8 := by
  rw [← fillBuffer_last hfit heap]
  obtain ⟨out, buf, hout, hlen, hdec, hbuf⟩ :=
    decrypt_encrypt_spec hinv hkey hpos hfit heap heap'
  rw [hout]
  simp only [bind, Except.bind, hdec]
  generalize fillBuffer data heap (cipherSize data.bytes.length - 1 : Int) = t
  have hsize := @toInt_decryptSize out (by unfold cipherSize at hlen; omega)
    (by rw [hlen]; exact cipherSize_mod _) t
  constructor
  · intro h
    obtain ⟨hnonneg, helements⟩ := elements_of_newByteArray h
    have hn := congrArg List.length helements
    rw [data.length_elements, Memory.length_read] at hn
    unfold cipherSize at hlen
    omega
  · intro ht
    have hn : (decryptSize out.size t).toInt = data.bytes.length := by
      have hlt := data.size_lt
      unfold cipherSize at hlen
      omega
    refine newByteArray_eq_ok hn fun i hi => ?_
    have hi' := hi
    rw [data.length_elements] at hi'
    rw [hbuf i (by omega) (by unfold cipherSize; omega), fillBuffer_data heap hi]

end RoundTrip

theorem decrypt_encrypt_three :
    (encrypt sampleDes3 (fun _ => 0) sampleKey sampleThree >>=
      decrypt sampleDes3 (fun _ => 0) sampleKey) = .ok sampleThree :=
  (decrypt_encrypt_iff (tableDes3_inverse _) rfl (by decide) (by decide) _ _).2
    (Or.inl (by decide))

/-- Four bytes over a zeroed heap: the last byte of the block is left at 0, and `decrypt` returns
the empty array. -/
theorem decrypt_encrypt_four :
    sampleDes3.Inverse ∧ sampleKey.bytes.length = 16 ∧
      (encrypt sampleDes3 (fun _ => 0) sampleKey sampleFour >>=
        decrypt sampleDes3 (fun _ => 0) sampleKey) = .ok JByteArray.empty ∧
      JByteArray.empty ≠ sampleFour :=
  ⟨tableDes3_inverse _, rfl, by decide +kernel, by decide⟩

/-! ## Heap content in the ciphertext -/

section HeapContent

variable {Ctx : Type} {lib : Des3 Ctx} (hinv : lib.Inverse) {key data : JByteArray}
  (hkey : key.bytes.length = 16) (hpos : 0 < data.bytes.length)
  (hfit : data.bytes.length + 8 < 2 ^ 31)

include hinv hkey hpos hfit in
theorem fillBuffer_eq_of_encrypt_eq {heap₁ heap₂ : Memory UInt8}
    (h : encrypt lib heap₁ key data = encrypt lib heap₂ key data) {c : Int} (h0 : 0 ≤ c)
    (hc : c < cipherSize data.bytes.length) :
    fillBuffer data heap₁ c = fillBuffer data heap₂ c := by
  have hmod := cipherSize_mod data.bytes.length
  obtain ⟨out₁, hout₁, helements₁⟩ := encrypt_spec lib heap₁ hkey hpos hfit
  obtain ⟨out₂, hout₂, helements₂⟩ := encrypt_spec lib heap₂ hkey hpos hfit
  rw [hout₁, hout₂] at h
  obtain rfl : out₁ = out₂ := Except.ok.inj h
  rw [← mapBlocks_of_encrypt hinv heap₁ hmod helements₁ h0 hc,
    mapBlocks_of_encrypt hinv heap₁ hmod helements₂ h0 hc]

include hkey hpos hfit in
theorem encrypt_congr {heap₁ heap₂ : Memory UInt8}
    (h : ∀ c, Stale data.bytes.length c → heap₁ c = heap₂ c) :
    encrypt lib heap₁ key data = encrypt lib heap₂ key data := by
  have hmod := cipherSize_mod data.bytes.length
  obtain ⟨out₁, hout₁, helements₁⟩ := encrypt_spec lib heap₁ hkey hpos hfit
  obtain ⟨out₂, hout₂, helements₂⟩ := encrypt_spec lib heap₂ hkey hpos hfit
  have hread : out₁.elements = out₂.elements := by
    rw [helements₁, helements₂]
    apply Memory.read_congr
    intro i hi
    exact Memory.mapBlocks_congr _ (fun c h0 hc => fillBuffer_congr hfit h h0 (by omega))
      (by omega) (by omega)
  rw [hout₁, hout₂, JByteArray.elements_injective hread]

include hinv hkey hpos hfit in
/-- **Heap content in the ciphertext.** Two runs of `encrypt` give the same ciphertext exactly when
the heap contents agree at the stale offsets; for no key and data do they always. -/
theorem encrypt_eq_iff :
    (∀ heap₁ heap₂ : Memory UInt8,
      encrypt lib heap₁ key data = encrypt lib heap₂ key data ↔
        ∀ c, Stale data.bytes.length c → heap₁ c = heap₂ c) ∧
    ∃ heap₁ heap₂ : Memory UInt8, encrypt lib heap₁ key data ≠ encrypt lib heap₂ key data := by
  have hiff : ∀ heap₁ heap₂ : Memory UInt8,
      encrypt lib heap₁ key data = encrypt lib heap₂ key data ↔
        ∀ c, Stale data.bytes.length c → heap₁ c = heap₂ c := by
    intro heap₁ heap₂
    constructor
    · intro h c hc
      have hsame := fillBuffer_eq_of_encrypt_eq hinv hkey hpos hfit h
        (by unfold Stale at hc; omega) hc.lt_cipherSize
      rwa [fillBuffer_stale hfit heap₁ hc, fillBuffer_stale hfit heap₂ hc] at hsame
    · exact encrypt_congr hkey hpos hfit
  refine ⟨hiff, fun _ => 0, fun _ => 1, fun h => ?_⟩
  exact absurd ((hiff _ _).1 h _ (stale_first _)) (by decide)

end HeapContent

theorem encrypt_eq_four :
    (∀ heap₁ heap₂ : Memory UInt8,
      encrypt sampleDes3 heap₁ sampleKey sampleFour =
          encrypt sampleDes3 heap₂ sampleKey sampleFour ↔
        ∀ c, Stale 4 c → heap₁ c = heap₂ c) ∧
    ∃ heap₁ heap₂ : Memory UInt8, encrypt sampleDes3 heap₁ sampleKey sampleFour ≠
      encrypt sampleDes3 heap₂ sampleKey sampleFour :=
  encrypt_eq_iff (tableDes3_inverse _) rfl (by decide) (by decide)

theorem encrypt_four_differs :
    encrypt sampleDes3 (fun _ => 0) sampleKey sampleFour ≠
      encrypt sampleDes3 (fun _ => 0xFF) sampleKey sampleFour := by
  decide +kernel

/-! ## The length `decrypt` takes from the trailer -/

/-- `decrypt` rejects the ciphertext with the empty array, or returns a prefix of the decrypted
blocks that is shorter than they are. -/
def DecryptSafe {Ctx : Type} (lib : Des3 Ctx) (heap : Memory UInt8) (key data : JByteArray) :
    Prop :=
  ∃ out, decrypt lib heap key data = .ok out ∧
    (out = JByteArray.empty ∨ out.bytes.length < data.bytes.length ∧
      out.elements <+: ecb (lib.decBlock key) data.elements)

/-- Every block is the encryption of some block: the cipher is injective on a finite type. -/
theorem exists_encBlock {Ctx : Type} {lib : Des3 Ctx} (hinv : lib.Inverse)
    (key : JByteArray) (b : Block) : ∃ plain, lib.encBlock key plain = b := by
  have hfinite : Finite UInt8 := Finite.of_injective UInt8.toFin fun _ _ => UInt8.toFin_inj.1
  exact Finite.surjective_of_injective (hinv key).injective b

section DecryptSafe

variable {Ctx : Type} {lib : Des3 Ctx} (heap : Memory UInt8) {key data : JByteArray}
  (hkey : key.bytes.length = 16) (hpos : 0 < data.bytes.length)
  (hmod : data.bytes.length % 8 = 0)

include hkey hpos hmod in
theorem decryptSafe_of_trailer (h : (trailer lib key data).toNat < 8) :
    DecryptSafe lib heap key data := by
  have hlt := data.size_lt
  have hn : (decryptSize data.size (trailer lib key data)).toInt =
      data.bytes.length - 8 + (trailer lib key data).toNat :=
    (toInt_decryptSize hpos hmod _).resolve_right (by omega)
  have hnonneg : 0 ≤ (decryptSize data.size (trailer lib key data)).toInt := by omega
  obtain ⟨out, hout, helements⟩ := newByteArray_of_nonneg hnonneg
    (Memory.mapBlocks (lib.decBlock key) (Memory.storeList heap data.elements)
      (data.bytes.length / 8))
  have hlen := congrArg List.length helements
  rw [out.length_elements, Memory.length_read, hn] at hlen
  refine ⟨out, by rw [decrypt_spec lib heap hkey hpos hmod, hout], Or.inr ⟨by omega, ?_⟩⟩
  have hecb := read_mapBlocks_storeList (lib.decBlock key) heap data.elements
    (by rw [data.length_elements]; exact hmod)
  rw [data.length_elements] at hecb
  rw [helements, ← hecb]
  exact Memory.read_prefix _ (by omega)

include hkey hpos hmod in
theorem not_decryptSafe_of_trailer (h : 8 ≤ (trailer lib key data).toNat) :
    ¬ DecryptSafe lib heap key data := by
  rintro ⟨out, hout, hcase⟩
  rw [decrypt_spec lib heap hkey hpos hmod] at hout
  obtain ⟨hnonneg, helements⟩ := elements_of_newByteArray hout
  have hn := (toInt_decryptSize hpos hmod (trailer lib key data)).resolve_right (by omega)
  have hlen := congrArg List.length helements
  rw [out.length_elements, Memory.length_read, hn] at hlen
  rcases hcase with rfl | ⟨hshort, -⟩
  · have hempty : JByteArray.empty.bytes.length = 0 := rfl
    omega
  · omega

include hkey hpos hmod in
/-- **The result stays inside the decrypted data** exactly when the last block of the input is the
encryption under the same key of a block that ends in one of the bytes 0 to 7, which is what
`encrypt` means to store there. -/
theorem decryptSafe_iff (hinv : lib.Inverse) :
    DecryptSafe lib heap key data ↔ ∃ plain : Block, (plain 7).toNat < 8 ∧
      lib.encBlock key plain = blockOf data.elements (data.bytes.length / 8 - 1) := by
  obtain ⟨plain, hplain⟩ := exists_encBlock hinv key
    (blockOf data.elements (data.bytes.length / 8 - 1))
  have htrailer : ∀ p, lib.encBlock key p = blockOf data.elements (data.bytes.length / 8 - 1) →
      trailer lib key data = p 7 := by
    intro p hp
    rw [trailer, ← hp, hinv key p]
  constructor
  · intro hsafe
    refine ⟨plain, ?_, hplain⟩
    rw [← htrailer plain hplain]
    by_contra hge
    exact not_decryptSafe_of_trailer heap hkey hpos hmod (Nat.le_of_not_lt hge) hsafe
  · rintro ⟨p, hlt, hp⟩
    apply decryptSafe_of_trailer heap hkey hpos hmod
    rwa [htrailer p hp]

end DecryptSafe

theorem decryptSafe_three : DecryptSafe sampleDes3 (fun _ => 0xAA) sampleKey
    ⟨[-8, 0x5d, -65, 0x35, -4, 0x7b, 0x77, -68], by decide⟩ :=
  (decryptSafe_iff _ rfl (by decide) (by decide) (tableDes3_inverse _)).2
    ⟨blockOf [0x01, 0x02, 0x03, 0x00, 0x00, 0x00, 0x00, 0x03] 0, by decide, by decide +kernel⟩

/-- Eight zero bytes: the trailer is `0x59`, and 81 of the 89 bytes returned are not from the
buffer. -/
theorem not_decryptSafe_zeros : ¬ DecryptSafe sampleDes3 (fun _ => 0xAA) sampleKey
    ⟨List.replicate 8 0, by decide⟩ :=
  not_decryptSafe_of_trailer _ rfl (by decide) (by decide) (by decide +kernel)

end Fclient.Verify
