import Fclient.Verify.Overflow
import Fclient.Verify.Padding
import Mathlib.Data.List.GetD

/-!
# What the mode gives away

`encrypt` and `decrypt` as functions of byte strings: the block-by-block transformation of the data
and the tail that is left behind it (`encrypt_ecb`), and a prefix of the transformed blocks with the
heap behind them (`decrypt_ecb`). Both act on every block on its own. So equal blocks stay equal in
the ciphertexts of all messages (`blockOf_encrypt_iff`), whole blocks in front of a message leave
the rest of its ciphertext as it is (`encrypt_append`), and whatever is put in front of a ciphertext
is decrypted along with it (`decrypt_append`). Nothing authenticates the result.
-/

namespace Fclient.Verify

open Base Native

/-! ## Byte strings block by block -/

section Ecb

variable {f : Block → Block} {a b l : List UInt8}

theorem blockOf_append_left {i : Nat} (hi : i < a.length / 8) :
    blockOf (a ++ b) i = blockOf a i := by
  funext k
  have hk : i * 8 + k.val < a.length := by omega
  unfold blockOf
  rw [List.getD_append _ _ _ _ hk]

theorem blockOf_append_right (ha : a.length % 8 = 0) (i : Nat) :
    blockOf (a ++ b) (a.length / 8 + i) = blockOf b i := by
  funext k
  have hk : (a.length / 8 + i) * 8 + k.val = a.length + (i * 8 + k.val) := by omega
  unfold blockOf
  rw [hk, List.getD_append_right _ _ _ _ (Nat.le_add_right _ _), Nat.add_sub_cancel_left]

theorem ecb_append (f : Block → Block) (ha : a.length % 8 = 0) :
    ecb f (a ++ b) = ecb f a ++ ecb f b := by
  have hlen : (a ++ b).length / 8 = a.length / 8 + b.length / 8 := by
    rw [List.length_append]
    omega
  unfold ecb
  rw [hlen, List.range_add, List.flatMap_append, List.flatMap_map]
  congr 1
  · refine List.flatMap_congr fun i hi => ?_
    rw [blockOf_append_left (List.mem_range.1 hi)]
  · refine List.flatMap_congr fun i _ => ?_
    rw [blockOf_append_right ha]

theorem mapBlocks_storeList (f : Block → Block) (buf : Memory UInt8) (hl : l.length % 8 = 0) :
    Memory.mapBlocks f (buf.storeList l) (l.length / 8) = buf.storeList (ecb f l) := by
  have hread := read_mapBlocks_storeList f buf l hl
  have hlen := length_ecb f hl
  funext c
  by_cases h0 : c < 0
  · rw [Memory.mapBlocks_of_neg _ _ h0, Memory.storeList, if_neg (by omega), Memory.storeList,
      if_neg (by omega)]
  · by_cases hc : c < l.length
    · obtain ⟨i, rfl⟩ := Int.eq_ofNat_of_zero_le (Int.not_lt.1 h0)
      have hi : i < (ecb f l).length := by omega
      rw [Memory.storeList_of_lt _ _ hi]
      exact ((Memory.read_eq_iff _ _ _).1 hread).2 i hi
    · rw [Memory.mapBlocks_of_ge _ _ (by omega), Memory.storeList_of_ge _ _ (by omega),
        Memory.storeList_of_ge _ _ (by omega)]

/-- Block `i` of the result is what `f` makes of block `i`. -/
theorem blockOf_ecb (f : Block → Block) (hl : l.length % 8 = 0) {i : Nat} (hi : i < l.length / 8) :
    blockOf (ecb f l) i = f (blockOf l i) := by
  have hlen := length_ecb f hl
  rw [← loadBlock_storeList (fun _ => 0) _ (by omega), ← mapBlocks_storeList f _ hl,
    Memory.loadBlock_mapBlocks f _ hi, loadBlock_storeList _ _ (by omega)]

end Ecb

/-! ## The ciphertext -/

/-- What `encrypt` has in its buffer behind `n` bytes of data. -/
def tail (heap : Memory UInt8) (n : Nat) : List UInt8 :=
  (List.range (8 - n % 8)).map fun j =>
    if n % 8 < j then UInt8.ofNat (n % 8) else heap (n + j : Nat)

theorem length_tail (heap : Memory UInt8) (n : Nat) : (tail heap n).length = 8 - n % 8 := by
  rw [tail, List.length_map, List.length_range]

theorem length_data_tail (heap : Memory UInt8) (data : JByteArray) :
    (data.elements ++ tail heap data.bytes.length).length = cipherSize data.bytes.length := by
  rw [List.length_append, length_tail, data.length_elements]
  unfold cipherSize
  omega

theorem read_fillBuffer {data : JByteArray} (hfit : data.bytes.length + 8 < 2 ^ 31)
    (heap : Memory UInt8) : (fillBuffer data heap).read (cipherSize data.bytes.length) =
      data.elements ++ tail heap data.bytes.length := by
  have hdata := data.length_elements
  have hlen := length_data_tail heap data
  rw [Memory.read_eq_iff]
  refine ⟨hlen, fun i hi => ?_⟩
  unfold cipherSize at hlen
  by_cases hlt : i < data.elements.length
  · rw [fillBuffer_data heap hlt, List.getElem_append_left hlt]
  · rw [List.getElem_append_right (Nat.le_of_not_lt hlt), fillBuffer_behind heap hfit (by omega)]
    simp only [tail, List.getElem_map, List.getElem_range, hdata]
    have hsum : data.bytes.length + (i - data.bytes.length) = i := by omega
    rw [hsum]
    exact if_congr (by omega) rfl rfl

section Encrypt

variable {Ctx : Type} (lib : Des3 Ctx) (heap : Memory UInt8) {key data : JByteArray}
  (hkey : key.bytes.length = 16) (hpos : 0 < data.bytes.length)
  (hfit : data.bytes.length + 8 < 2 ^ 31)

include hkey hpos hfit in
/-- The ciphertext of the data and the tail. -/
theorem encrypt_ecb : ∃ out, encrypt lib heap key data = .ok out ∧
    out.elements = ecb (lib.encBlock key) (data.elements ++ tail heap data.bytes.length) := by
  obtain ⟨out, hout, helements⟩ := encrypt_spec lib heap hkey hpos hfit
  have hmod := cipherSize_mod data.bytes.length
  have hlen := length_data_tail heap data
  have hfill := read_fillBuffer hfit heap
  refine ⟨out, hout, ?_⟩
  rw [helements, ← read_mapBlocks_storeList _ (fun _ => 0) _ (by rw [hlen]; exact hmod), hlen]
  refine Memory.read_congr fun i hi => ?_
  refine Memory.mapBlocks_congr _ (fun c h0 hc => ?_) (by omega) (by omega)
  obtain ⟨k, rfl⟩ := Int.eq_ofNat_of_zero_le h0
  have hk : k < (data.elements ++ tail heap data.bytes.length).length := by omega
  rw [Memory.storeList_of_lt _ _ hk]
  exact ((Memory.read_eq_iff _ _ _).1 hfill).2 k hk

end Encrypt

section Decrypt

variable {Ctx : Type} (lib : Des3 Ctx) (heap : Memory UInt8) {key data : JByteArray}
  (hkey : key.bytes.length = 16) (hpos : 0 < data.bytes.length)
  (hmod : data.bytes.length % 8 = 0)

include hkey hpos hmod in
/-- The decrypted blocks, with the heap behind them. -/
theorem decrypt_ecb : decrypt lib heap key data =
    newByteArray (decryptSize data.size (trailer lib key data))
      (heap.storeList (ecb (lib.decBlock key) data.elements)) := by
  have hlen := data.length_elements
  rw [decrypt_spec lib heap hkey hpos hmod,
    ← mapBlocks_storeList _ heap (by rw [hlen]; exact hmod), hlen]

end Decrypt

/-! ## Equal blocks -/

section Blocks

variable {Ctx : Type} {lib : Des3 Ctx} {heap : Memory UInt8} {key data out : JByteArray}

theorem encrypt_admits (hkey : key.bytes.length = 16) (hpos : 0 < data.bytes.length)
    (hout : encrypt lib heap key data = .ok out) :
    out.elements = ecb (lib.encBlock key) (data.elements ++ tail heap data.bytes.length) := by
  have hfit := (encrypt_ok_iff lib heap hkey hpos).1 ⟨out, hout⟩
  obtain ⟨out', hout', helements⟩ := encrypt_ecb lib heap hkey hpos hfit
  obtain rfl : out = out' := Except.ok.inj (hout.symm.trans hout')
  exact helements

/-- Block `i` of the ciphertext depends on block `i` of the data only. -/
theorem blockOf_encrypt (hkey : key.bytes.length = 16)
    (hout : encrypt lib heap key data = .ok out) {i : Nat} (hi : i < data.bytes.length / 8) :
    blockOf out.elements i = lib.encBlock key (blockOf data.elements i) := by
  have hlen := length_data_tail heap data
  have hdata := data.length_elements
  have hmod := cipherSize_mod data.bytes.length
  rw [encrypt_admits hkey (by omega) hout, blockOf_ecb _ (by rw [hlen]; exact hmod),
    blockOf_append_left (by rw [hdata]; exact hi)]
  rw [hlen]
  unfold cipherSize
  omega

end Blocks

/-- **Equal blocks show.** In any two messages encrypted with one key, two full blocks of data are
equal exactly when their ciphertext blocks are, whatever the rest of the messages and the heap. -/
theorem blockOf_encrypt_iff {Ctx : Type} {lib : Des3 Ctx} (hinv : lib.Inverse)
    {heap₁ heap₂ : Memory UInt8} {key data₁ data₂ out₁ out₂ : JByteArray}
    (hkey : key.bytes.length = 16) (hout₁ : encrypt lib heap₁ key data₁ = .ok out₁)
    (hout₂ : encrypt lib heap₂ key data₂ = .ok out₂) {i j : Nat}
    (hi : i < data₁.bytes.length / 8) (hj : j < data₂.bytes.length / 8) :
    blockOf out₁.elements i = blockOf out₂.elements j ↔
      blockOf data₁.elements i = blockOf data₂.elements j := by
  rw [blockOf_encrypt hkey hout₁ hi, blockOf_encrypt hkey hout₂ hj]
  exact (hinv key).injective.eq_iff

/-- Triple DES under `sampleKey` on the blocks used below. -/
def blocksDes3 : Des3 Bool := tableDes3
  [(blockOf [0x01, 0x02, 0x03, 0x04, 0x05, 0x06, 0x07, 0x08] 0,
      blockOf [0xc2, 0x51, 0xbd, 0x3d, 0x73, 0xc0, 0xca, 0x88] 0),
    (blockOf [0x00, 0x00, 0x00, 0x00, 0x00, 0x00, 0x00, 0x00] 0,
      blockOf [0x84, 0xeb, 0xc4, 0xa8, 0xd7, 0x69, 0x17, 0x6e] 0),
    (blockOf [0x01, 0x02, 0x03, 0x00, 0x00, 0x00, 0x00, 0x03] 0,
      blockOf [0xf8, 0x5d, 0xbf, 0x35, 0xfc, 0x7b, 0x77, 0xbc] 0)]

def sampleEight : JByteArray := ⟨[1, 2, 3, 4, 5, 6, 7, 8], by decide⟩

def sampleSixteen : JByteArray := ⟨sampleEight.bytes ++ sampleEight.bytes, by decide⟩

theorem blockOf_encrypt_eight : ∃ out₁ out₂,
    encrypt blocksDes3 (fun _ => 0) sampleKey sampleEight = .ok out₁ ∧
    encrypt blocksDes3 (fun _ => 0) sampleKey sampleSixteen = .ok out₂ ∧
    (blockOf out₁.elements 0 = blockOf out₂.elements 1 ↔
      blockOf sampleEight.elements 0 = blockOf sampleSixteen.elements 1) := by
  obtain ⟨out₁, hout₁, -⟩ := @encrypt_ecb Bool blocksDes3 (fun _ => 0) sampleKey sampleEight
    rfl (by decide) (by decide)
  obtain ⟨out₂, hout₂, -⟩ := @encrypt_ecb Bool blocksDes3 (fun _ => 0) sampleKey
    sampleSixteen rfl (by decide) (by decide)
  exact ⟨out₁, out₂, hout₁, hout₂, blockOf_encrypt_iff (tableDes3_inverse _) rfl hout₁ hout₂
    (by decide) (by decide)⟩

/-! ## Appending -/

section Append

variable {Ctx : Type} (lib : Des3 Ctx) (heap : Memory UInt8) {key a b ab : JByteArray}
  (hkey : key.bytes.length = 16) (ha : a.bytes.length % 8 = 0) (hb : 0 < b.bytes.length)
  (hab : ab.bytes = a.bytes ++ b.bytes)

include hab in
theorem elements_append : ab.elements = a.elements ++ b.elements := by
  unfold JByteArray.elements
  rw [hab, List.map_append]

include ha in
/-- The tail only sees where the data ends. -/
theorem tail_append (n : Nat) :
    tail heap (a.bytes.length + n) = tail (fun c => heap (a.bytes.length + c)) n := by
  have hmod : (a.bytes.length + n) % 8 = n % 8 := by omega
  unfold tail
  rw [hmod]
  refine List.map_congr_left fun j _ => ?_
  rw [Nat.add_assoc, Int.natCast_add]

include hkey ha hb hab in
/-- **Whole blocks in front of a message** are encrypted on their own: the ciphertext goes on as
that of the rest. -/
theorem encrypt_append (hfit : ab.bytes.length + 8 < 2 ^ 31) :
    ∃ out outB, encrypt lib heap key ab = .ok out ∧
      encrypt lib (fun c => heap (a.bytes.length + c)) key b = .ok outB ∧
      out.elements = ecb (lib.encBlock key) a.elements ++ outB.elements := by
  have hlen : ab.bytes.length = a.bytes.length + b.bytes.length := by
    rw [hab, List.length_append]
  obtain ⟨out, hout, helements⟩ := encrypt_ecb lib heap hkey (by omega : 0 < ab.bytes.length) hfit
  obtain ⟨outB, houtB, helementsB⟩ := encrypt_ecb lib (fun c => heap (a.bytes.length + c)) hkey hb
    (by omega)
  refine ⟨out, outB, hout, houtB, ?_⟩
  rw [helements, helementsB, hlen, tail_append heap ha, elements_append hab, List.append_assoc,
    ecb_append _ (by rw [a.length_elements]; exact ha)]

include ha hab hb in
theorem trailer_append (hmod : b.bytes.length % 8 = 0) :
    trailer lib key ab = trailer lib key b := by
  have hlen : ab.bytes.length / 8 - 1 = a.elements.length / 8 + (b.bytes.length / 8 - 1) := by
    rw [hab, List.length_append, a.length_elements]
    omega
  unfold trailer
  rw [hlen, elements_append hab, blockOf_append_right (by rw [a.length_elements]; exact ha)]

include hkey ha hb hab in
/-- **Splicing.** Any whole blocks put in front of a ciphertext are decrypted along with it, and
nothing tells the result from that of a message which was encrypted as a whole. -/
theorem decrypt_append (hmod : b.bytes.length % 8 = 0) {p : JByteArray}
    (hp : decrypt lib (fun c => heap (a.bytes.length + c)) key b = .ok p)
    (hfit : a.bytes.length + p.bytes.length < 2 ^ 31) :
    ∃ r, decrypt lib heap key ab = .ok r ∧
      r.elements = ecb (lib.decBlock key) a.elements ++ p.elements := by
  have hlen : ab.bytes.length = a.bytes.length + b.bytes.length := by
    rw [hab, List.length_append]
  have hpos : 0 < ab.bytes.length := by omega
  have hmod' : ab.bytes.length % 8 = 0 := by omega
  rw [decrypt_ecb lib _ hkey hb hmod] at hp
  obtain ⟨hnonneg, helements⟩ := elements_of_newByteArray hp
  have hplen := congrArg List.length helements
  rw [p.length_elements, Memory.length_read] at hplen
  have hsize := (toInt_decryptSize hb hmod (trailer lib key b)).resolve_right (by omega)
  have hsize' : (decryptSize ab.size (trailer lib key ab)).toInt =
      (a.bytes.length + p.bytes.length : Nat) := by
    have h := toInt_decryptSize hpos hmod' (trailer lib key ab)
    rw [trailer_append lib ha hb hab hmod] at h ⊢
    omega
  obtain ⟨r, hr, hrelements⟩ := newByteArray_of_nonneg (by omega :
    0 ≤ (decryptSize ab.size (trailer lib key ab)).toInt)
    (heap.storeList (ecb (lib.decBlock key) ab.elements))
  have hecb := length_ecb (lib.decBlock key) (l := a.elements)
    (by rw [a.length_elements]; exact ha)
  rw [a.length_elements] at hecb
  refine ⟨r, by rw [decrypt_ecb lib heap hkey hpos hmod', hr], ?_⟩
  rw [hrelements, hsize', Int.toNat_natCast, elements_append hab,
    ecb_append _ (by rw [a.length_elements]; exact ha), ← hecb, Memory.read_storeList_append, hecb,
    helements, hplen]

end Append

theorem encrypt_append_three : ∃ out outB,
    encrypt blocksDes3 (fun _ => 0) sampleKey ⟨sampleEight.bytes ++ [1, 2, 3], by decide⟩ =
      .ok out ∧
    encrypt blocksDes3 (fun _ => 0) sampleKey sampleThree = .ok outB ∧
    out.elements = ecb (blocksDes3.encBlock sampleKey) sampleEight.elements ++ outB.elements :=
  encrypt_append blocksDes3 (fun _ => 0) rfl (by decide) (by decide) rfl (by decide)

/-- The ciphertext of the three bytes, behind a block that was never encrypted with them. -/
theorem decrypt_append_three : ∃ r,
    decrypt blocksDes3 (fun _ => 0xAA) sampleKey
      ⟨[-62, 0x51, -67, 0x3d, 0x73, -64, -54, -120] ++
        [-8, 0x5d, -65, 0x35, -4, 0x7b, 0x77, -68], by decide⟩ = .ok r ∧
    r.elements = ecb (blocksDes3.decBlock sampleKey)
      [0xc2, 0x51, 0xbd, 0x3d, 0x73, 0xc0, 0xca, 0x88] ++ sampleThree.elements :=
  decrypt_append blocksDes3 (fun _ => 0xAA)
    (a := ⟨[-62, 0x51, -67, 0x3d, 0x73, -64, -54, -120], by decide⟩)
    (b := ⟨[-8, 0x5d, -65, 0x35, -4, 0x7b, 0x77, -68], by decide⟩)
    rfl (by decide) (by decide) rfl (by decide) (by decide +kernel) (by decide)

/-! ## What comes back -/

/-- The byte that `decrypt` takes the length from: the residue where the padding loop stores it, and
what the heap held where it does not. -/
def lengthByte (heap : Memory UInt8) (n : Nat) : UInt8 :=
  if n % 8 < 4 then UInt8.ofNat (n % 8) else heap (n + (7 - n % 8) : Nat)

section Outcome

variable {Ctx : Type} {lib : Des3 Ctx} (hinv : lib.Inverse) {key data : JByteArray}
  (hkey : key.bytes.length = 16) (hpos : 0 < data.bytes.length)
  (hfit : data.bytes.length + 8 < 2 ^ 31)

theorem blockOf_last (heap : Memory UInt8) (data : JByteArray) :
    blockOf (data.elements ++ tail heap data.bytes.length)
      (cipherSize data.bytes.length / 8 - 1) 7 = lengthByte heap data.bytes.length := by
  have hlast : (cipherSize data.bytes.length / 8 - 1) * 8 + (7 : Fin 8).val =
      data.elements.length + (7 - data.bytes.length % 8) := by
    have hseven : (7 : Fin 8).val = 7 := rfl
    rw [hseven, data.length_elements]
    unfold cipherSize
    omega
  have hj : 7 - data.bytes.length % 8 < 8 - data.bytes.length % 8 := by omega
  rw [blockOf, hlast, List.getD_append_right _ _ _ _ (Nat.le_add_right _ _),
    Nat.add_sub_cancel_left, List.getD_eq_getElem _ _ (by rw [length_tail]; exact hj)]
  simp only [tail, List.getElem_map, List.getElem_range, lengthByte]
  exact if_congr (by omega) rfl rfl

include hinv in
theorem trailer_encrypt {heap : Memory UInt8} {out : JByteArray}
    (hlen : out.bytes.length = cipherSize data.bytes.length)
    (helements : out.elements =
      ecb (lib.encBlock key) (data.elements ++ tail heap data.bytes.length)) :
    trailer lib key out = lengthByte heap data.bytes.length := by
  have hplain := length_data_tail heap data
  have hmod := cipherSize_mod data.bytes.length
  have hblocks : cipherSize data.bytes.length / 8 - 1 < cipherSize data.bytes.length / 8 := by
    unfold cipherSize
    omega
  rw [trailer, hlen, helements, blockOf_ecb _ (by rw [hplain]; exact hmod)
    (by rw [hplain]; exact hblocks), hinv key, blockOf_last]

include hinv hkey hpos hfit in
/-- What `decrypt` makes of the ciphertext is read off a buffer with the data and the tail. -/
theorem decrypt_encrypt_read (heap heap' : Memory UInt8)
    (hsize : cipherSize data.bytes.length - 8 + (lengthByte heap data.bytes.length).toNat <
      2 ^ 31) :
    ∃ out p, encrypt lib heap key data = .ok out ∧ decrypt lib heap' key out = .ok p ∧
      p.elements = (heap'.storeList (data.elements ++ tail heap data.bytes.length)).read
        (cipherSize data.bytes.length - 8 + (lengthByte heap data.bytes.length).toNat) := by
  obtain ⟨out, hout, helements⟩ := encrypt_ecb lib heap hkey hpos hfit
  have hplain := length_data_tail heap data
  have hmod := cipherSize_mod data.bytes.length
  have hle : 8 ≤ cipherSize data.bytes.length := by
    unfold cipherSize
    omega
  have hlen : out.bytes.length = cipherSize data.bytes.length := by
    rw [← out.length_elements, helements, length_ecb _ (by rw [hplain]; exact hmod), hplain]
  have htrailer := trailer_encrypt hinv hlen helements
  have hbyte := (lengthByte heap data.bytes.length).toNat_lt
  have hsz : (decryptSize out.size (lengthByte heap data.bytes.length)).toInt =
      (cipherSize data.bytes.length - 8 + (lengthByte heap data.bytes.length).toNat : Nat) := by
    have h := @toInt_decryptSize out (by omega) (by omega) (lengthByte heap data.bytes.length)
    omega
  obtain ⟨p, hp, hpelements⟩ := newByteArray_of_nonneg (by omega : 0 ≤ (decryptSize out.size
    (lengthByte heap data.bytes.length)).toInt)
    (heap'.storeList (data.elements ++ tail heap data.bytes.length))
  refine ⟨out, p, hout, ?_, by rw [hpelements, hsz, Int.toNat_natCast]⟩
  rw [decrypt_ecb lib heap' hkey (by omega) (by omega), htrailer, helements,
    ecb_decBlock hinv (by rw [hplain]; exact hmod), hp]

include hinv hkey hpos hfit in
/-- **The way there and back**, for every length and heap: `decrypt` returns the data and the tail,
cut off or continued with its own heap to the length that the last byte of the tail says. -/
theorem decrypt_encrypt_eq (heap heap' : Memory UInt8)
    (hsize : cipherSize data.bytes.length - 8 + (lengthByte heap data.bytes.length).toNat <
      2 ^ 31) :
    ∃ p, (encrypt lib heap key data >>= decrypt lib heap' key) = .ok p ∧
      p.elements = (data.elements ++ tail heap data.bytes.length ++ (List.range 247).map
        fun i => heap' (cipherSize data.bytes.length + i : Nat)).take
          (cipherSize data.bytes.length - 8 + (lengthByte heap data.bytes.length).toNat) := by
  obtain ⟨out, p, hout, hp, helements⟩ :=
    decrypt_encrypt_read hinv hkey hpos hfit heap heap' hsize
  have hplain := length_data_tail heap data
  have hle : 8 ≤ cipherSize data.bytes.length := by
    unfold cipherSize
    omega
  have hbyte := (lengthByte heap data.bytes.length).toNat_lt
  have hself := Memory.storeList_append_self heap'
    (data.elements ++ tail heap data.bytes.length) 247
  rw [hplain] at hself
  refine ⟨p, by rw [hout]; exact hp, ?_⟩
  rw [helements, ← hself, Memory.read_storeList]
  rw [List.length_append, List.length_map, List.length_range, hplain]
  omega

end Outcome

/-- Four bytes on a heap of ones come back with 251 bytes behind them. -/
theorem decrypt_encrypt_ones : ∃ p,
    (encrypt sampleDes3 (fun _ => 0xFF) sampleKey sampleFour >>=
      decrypt sampleDes3 (fun _ => 0xAA) sampleKey) = .ok p ∧
    p.elements = (sampleFour.elements ++ tail (fun _ => 0xFF) 4 ++ (List.range 247).map
      fun _ => 0xAA).take (8 - 8 + 255) :=
  decrypt_encrypt_eq (tableDes3_inverse _) rfl (by decide) (by decide) _ _ (by decide)

end Fclient.Verify
