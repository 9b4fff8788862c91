import Fclient.Base.Pkcs
import Fclient.Verify.RoundTrip

/-!
# The padding of `encrypt` against PKCS#5

The comment in `encrypt` names PKCS#5: behind `n` bytes of data the buffer should hold `8 - n % 8`
bytes of that value. The padding loop stores the value `n % 8`, and it stores it elsewhere. Where it
stores inside the buffer at all the value is wrong, and where it does not the whole padding is what
the heap held (`pkcs5_iff`).
-/

namespace Fclient.Verify

open Base Native

/-- `encrypt` gives the block-by-block encryption of the padded data, from which a receiver with the
same key recovers the data. -/
def Pkcs5 {Ctx : Type} (lib : Des3 Ctx) (heap : Memory UInt8) (key data : JByteArray) : Prop :=
  ∃ out, encrypt lib heap key data = .ok out ∧
    out.elements = ecb (lib.encBlock key) (pkcsPad 8 data.elements) ∧
    pkcsUnpad 8 (ecb (lib.decBlock key) out.elements) = some data.elements

section Padding

variable {Ctx : Type} {lib : Des3 Ctx} (hinv : lib.Inverse) {key data : JByteArray}
  (hkey : key.bytes.length = 16) (hpos : 0 < data.bytes.length)
  (hfit : data.bytes.length + 8 < 2 ^ 31)

include hinv in
theorem ecb_decBlock {l : List UInt8} (hl : l.length % 8 = 0) :
    ecb (lib.decBlock key) (ecb (lib.encBlock key) l) = l := by
  have hread := read_mapBlocks_storeList (lib.encBlock key) (fun _ => 0) l hl
  have hlen := length_ecb (lib.encBlock key) hl
  rw [← read_mapBlocks_storeList _ (fun _ => 0) _ (by rw [hlen]; exact hl), hlen,
    Memory.read_eq_iff]
  refine ⟨rfl, fun i hi => ?_⟩
  rw [mapBlocks_of_encrypt hinv _ hl hread.symm (by omega) (by omega)]
  exact Memory.storeList_of_lt _ _ hi

theorem length_padded (data : JByteArray) :
    (pkcsPad 8 data.elements).length = cipherSize data.bytes.length := by
  rw [length_pkcsPad, data.length_elements]
  unfold cipherSize
  omega

include hinv hkey hpos hfit in
/-- The ciphertext is that of the padded data exactly when the buffer holds the padded data. -/
theorem elements_eq_ecb_iff (heap : Memory UInt8) {out : JByteArray}
    (hout : encrypt lib heap key data = .ok out) :
    out.elements = ecb (lib.encBlock key) (pkcsPad 8 data.elements) ↔
      ∀ c : Int, 0 ≤ c → c < cipherSize data.bytes.length →
        fillBuffer data heap c = heap.storeList (pkcsPad 8 data.elements) c := by
  have hmod := cipherSize_mod data.bytes.length
  obtain ⟨out', hout', helements⟩ := encrypt_spec lib heap hkey hpos hfit
  obtain rfl : out = out' := Except.ok.inj (hout.symm.trans hout')
  have hecb := read_mapBlocks_storeList (lib.encBlock key) heap (pkcsPad 8 data.elements)
    (by rw [length_padded]; exact hmod)
  rw [length_padded] at hecb
  constructor
  · intro h c h0 hc
    rw [← mapBlocks_of_encrypt hinv heap hmod helements h0 hc,
      ← mapBlocks_of_encrypt hinv heap hmod (h.trans hecb.symm) h0 hc]
  · intro h
    rw [helements, ← hecb]
    apply Memory.read_congr
    intro i hi
    exact Memory.mapBlocks_congr _ (fun c h0 hc => h c h0 (by omega)) (by omega) (by omega)

theorem storeList_padded_of_lt (heap : Memory UInt8) {i : Nat} (hi : i < data.elements.length) :
    heap.storeList (pkcsPad 8 data.elements) i = data.elements[i] := by
  have hlen := length_pkcsPad (n := 8) data.elements
  rw [Memory.storeList_of_lt heap _ (by omega), getElem_pkcsPad_of_lt hi]

theorem storeList_padded_of_ge (heap : Memory UInt8) {i : Nat} (hi : data.bytes.length ≤ i)
    (hi' : i < cipherSize data.bytes.length) :
    heap.storeList (pkcsPad 8 data.elements) i = UInt8.ofNat (8 - data.bytes.length % 8) := by
  have hlen := data.length_elements
  rw [Memory.storeList_of_lt heap _ (by rw [length_padded]; exact hi'),
    getElem_pkcsPad_of_ge (by omega), hlen]

include hfit in
/-- Behind the data the two buffers agree only where the heap supplies the padding. -/
theorem fillBuffer_eq_padded_iff (heap : Memory UInt8) :
    (∀ c : Int, 0 ≤ c → c < cipherSize data.bytes.length →
        fillBuffer data heap c = heap.storeList (pkcsPad 8 data.elements) c) ↔
      4 ≤ data.bytes.length % 8 ∧ ∀ j : Nat, j < 8 - data.bytes.length % 8 →
        heap (data.bytes.length + j) = UInt8.ofNat (8 - data.bytes.length % 8) := by
  constructor
  · intro h
    have hres : 4 ≤ data.bytes.length % 8 := by
      by_contra hlt
      -- the first store of the loop that is inside the buffer puts the wrong value there
      have hcell := h (data.bytes.length + data.bytes.length % 8 + 1 : Nat) (by omega)
        (by unfold cipherSize; omega)
      rw [fillBuffer_behind heap hfit (by omega), if_pos (by omega),
        storeList_padded_of_ge heap (by omega) (by unfold cipherSize; omega)] at hcell
      have hval := congrArg UInt8.toNat hcell
      rw [UInt8.toNat_ofNat', UInt8.toNat_ofNat'] at hval
      omega
    refine ⟨hres, fun j hj => ?_⟩
    have hcell := h (data.bytes.length + j : Nat) (by omega) (by unfold cipherSize; omega)
    rw [fillBuffer_behind heap hfit (by omega), if_neg (by omega),
      storeList_padded_of_ge heap (by omega) (by unfold cipherSize; omega)] at hcell
    exact_mod_cast hcell
  · rintro ⟨hres, hheap⟩ c h0 hc
    obtain ⟨i, rfl⟩ := Int.eq_ofNat_of_zero_le h0
    have hlen := data.length_elements
    by_cases hi : i < data.elements.length
    · rw [fillBuffer_data heap hi, storeList_padded_of_lt heap hi]
    · obtain ⟨j, rfl⟩ := Nat.exists_eq_add_of_le (Nat.le_of_not_lt hi)
      unfold cipherSize at hc
      rw [fillBuffer_behind heap hfit (by omega), if_neg (by omega),
        storeList_padded_of_ge heap (by omega) (by unfold cipherSize; omega),
        ← hheap j (by omega), hlen]
      rfl

include hinv hkey hpos hfit in
/-- **PKCS#5 only by accident**: exactly when at least four bytes of the last block are data and the
heap held the right padding behind them. -/
theorem pkcs5_iff (heap : Memory UInt8) :
    Pkcs5 lib heap key data ↔
      4 ≤ data.bytes.length % 8 ∧ ∀ j : Nat, j < 8 - data.bytes.length % 8 →
        heap (data.bytes.length + j) = UInt8.ofNat (8 - data.bytes.length % 8) := by
  rw [← fillBuffer_eq_padded_iff hfit heap]
  obtain ⟨out, hout, -⟩ := encrypt_spec lib heap hkey hpos hfit
  rw [← elements_eq_ecb_iff hinv hkey hpos hfit heap hout]
  constructor
  · rintro ⟨out', hout', helements, -⟩
    obtain rfl : out = out' := Except.ok.inj (hout.symm.trans hout')
    exact helements
  · intro helements
    refine ⟨out, hout, helements, ?_⟩
    rw [helements, ecb_decBlock hinv (length_pkcsPad_mod (Nat.succ_pos 7) _)]
    exact pkcsUnpad_pkcsPad (Nat.succ_pos 7) (by omega) data.elements

end Padding

/-- Four bytes, and the heap holds `04` everywhere. -/
theorem pkcs5_four : Pkcs5 sampleDes3 (fun _ => 0x04) sampleKey sampleFour :=
  (pkcs5_iff (tableDes3_inverse _) rfl (by decide) (by decide) _).2
    ⟨by decide, fun _ _ => rfl⟩

/-- Three bytes over a zeroed heap: `01 02 03 00 00 00 00 03` is encrypted instead of
`01 02 03 05 05 05 05 05`. -/
theorem not_pkcs5_three : ¬ Pkcs5 sampleDes3 (fun _ => 0) sampleKey sampleThree := by
  rintro ⟨out, hout, helements, -⟩
  have hbuf := (elements_eq_ecb_iff (tableDes3_inverse _) rfl (by decide) (by decide) _ hout).1
    helements
  exact absurd ((fillBuffer_eq_padded_iff (by decide) _).1 hbuf).1 (by decide)

end Fclient.Verify
