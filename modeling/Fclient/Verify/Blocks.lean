import Fclient.Verify.Bounds

/-!
# The block loops and the trailer

The parts of the cipher that work for every length. The block loop of the two functions transforms
each block of the buffer once and on its own, in `encrypt` as in `decrypt`, so that the loops cancel
(`cryptLoop_cancel`). And `decrypt` undoes the trailer format it assumes, seven minus residue bytes
of any value and then the residue, for every filler (`decrypt_trailer`): where the round trip fails
it is because `encrypt` does not produce that format.
-/

namespace Fclient.Verify

open Base Native

/-! ## The block loops -/

/-- In a buffer of `sz` bytes block `i` becomes what `f` makes of block `i`, and the memory around
the buffer stays as it is. -/
structure BlockWise (sz : JInt) (f : Block → Block) (m m' : Memory UInt8) : Prop where
  block : ∀ i : Nat, i * 8 < sz.toInt →
    m'.loadBlock 8 (i * (8 : Nat)) = f (m.loadBlock 8 (i * (8 : Nat)))
  inFront : ∀ c : Int, c < 0 → m' c = m c
  behind : ∀ c : Int, sz.toInt ≤ c → m' c = m c

section Loops

variable {sz : JInt} (h0 : 0 ≤ sz.toInt)
include h0

theorem blockWise_cryptLoop (hmod : sz.toInt % 8 = 0) (f : Block → Block) (m : Memory UInt8) :
    BlockWise sz f m (cryptLoop f (blockCount sz) m) := by
  obtain ⟨n, hn⟩ := Int.eq_ofNat_of_zero_le h0
  rw [cryptLoop_size hn]
  exact {
    block := fun i hi => Memory.loadBlock_mapBlocks f m (by omega)
    inFront := fun c hc => Memory.mapBlocks_of_neg f m hc
    behind := fun c hc => Memory.mapBlocks_of_ge f m (by omega) }

/-- **The block loops cancel.** On a buffer of any number of whole blocks the loop with `E` and then
the loop with `D` leave the memory as it was. Either of them works block by block, with any block
function, and all its writes are inside the buffer. -/
theorem cryptLoop_cancel {E D : Block → Block} (hinv : Function.LeftInverse D E)
    (hmod : sz.toInt % 8 = 0) (buf : Memory UInt8) :
    cryptLoop D (blockCount sz) (cryptLoop E (blockCount sz) buf) = buf ∧
      ∀ (f : Block → Block) (m : Memory UInt8),
        BlockWise sz f m (cryptLoop f (blockCount sz) m) ∧
          cryptLoopChecked sz f (blockCount sz) m = .ok (cryptLoop f (blockCount sz) m) := by
  refine ⟨?_, fun f m => ⟨blockWise_cryptLoop h0 hmod f m, cryptLoopChecked_size h0 f m⟩⟩
  obtain ⟨n, hn⟩ := Int.eq_ofNat_of_zero_le h0
  rw [cryptLoop_size hn, cryptLoop_size hn, Memory.mapBlocks_cancel _ hinv]

end Loops

/-- Two blocks, complemented byte by byte. -/
theorem cryptLoop_cancel_complement :
    cryptLoop (fun b k => ~~~ b k) (16 / 8) (cryptLoop (fun b k => ~~~ b k) (16 / 8) fun _ => 7) =
        (fun _ => 7) ∧
      ∀ (f : Block → Block) (m : Memory UInt8),
        BlockWise 16 f m (cryptLoop f (16 / 8) m) ∧
          cryptLoopChecked 16 f (16 / 8) m = .ok (cryptLoop f (16 / 8) m) :=
  cryptLoop_cancel (by decide) (fun b => funext fun k => UInt8.not_not) (by decide) fun _ => 7

/-! ## The trailer -/

section Trailer

variable {Ctx : Type} {lib : Des3 Ctx} (hinv : lib.Inverse) (heap : Memory UInt8)
  {key c : JByteArray} (hkey : key.bytes.length = 16)

theorem length_of_ecb {f : Block → Block} {l : List UInt8} (hmod : l.length % 8 = 0)
    (hc : c.elements = ecb f l) : c.bytes.length = l.length := by
  rw [← c.length_elements, hc, length_ecb f hmod]

include hinv in
/-- The loop of `decrypt` leaves the plaintext in the buffer. -/
theorem mapBlocks_of_ecb {l : List UInt8} (hmod : l.length % 8 = 0)
    (hc : c.elements = ecb (lib.encBlock key) l) {i : Nat} (hi : i < l.length) :
    Memory.mapBlocks (lib.decBlock key) (heap.storeList c.elements) (c.bytes.length / 8) i =
      l[i] := by
  have hread := read_mapBlocks_storeList (lib.encBlock key) heap l hmod
  rw [length_of_ecb hmod hc,
    mapBlocks_of_encrypt hinv heap hmod (hc.trans hread.symm) (by omega) (by omega),
    Memory.storeList_of_lt heap l hi]

include hinv hkey in
/-- The last byte of the plaintext gives the length of the result, the bytes in front of it the
result. -/
theorem decrypt_of_ecb {l : List UInt8} {t : UInt8} (hmod : (l ++ [t]).length % 8 = 0)
    (hc : c.elements = ecb (lib.encBlock key) (l ++ [t])) :
    ∃ buf, decrypt lib heap key c = newByteArray (decryptSize c.size t) buf ∧
      ∀ i (hi : i < l.length), buf i = l[i] := by
  have hlen := length_of_ecb hmod hc
  have hcell := @mapBlocks_of_ecb _ _ hinv heap key c _ hmod hc
  rw [List.length_append, List.length_singleton] at hlen hmod
  have htrailer : trailer lib key c = t := by
    have hlast := @hcell l.length (by simp)
    have hcast : (c.bytes.length : Int) - 1 = l.length := by omega
    rw [List.getElem_concat_length rfl] at hlast
    rw [← trailer_eq lib heap (by omega) (by omega), hcast, hlast]
  have hdec := @decrypt_spec _ lib heap key c hkey (by omega) (by omega)
  rw [htrailer] at hdec
  refine ⟨_, hdec, fun i hi => ?_⟩
  rw [hcell (by simp; omega), List.getElem_append_left hi]

include hinv hkey in
/-- **The trailer format.** A ciphertext whose plaintext ends in a filler up to the last byte of a
block and in the residue of the length there decrypts to the bytes in front of the filler. -/
theorem decrypt_trailer {p : JByteArray} {f : List UInt8}
    (hf : f.length = 7 - p.bytes.length % 8)
    (hc : c.elements = ecb (lib.encBlock key)
      (p.elements ++ f ++ [UInt8.ofNat (p.bytes.length % 8)])) :
    decrypt lib heap key c = .ok p := by
  have hp := p.length_elements
  have hmod : (p.elements ++ f ++ [UInt8.ofNat (p.bytes.length % 8)]).length % 8 = 0 := by
    simp only [List.length_append, List.length_singleton]
    omega
  have hlen : c.bytes.length = p.bytes.length + 8 - p.bytes.length % 8 := by
    rw [length_of_ecb hmod hc]
    simp only [List.length_append, List.length_singleton]
    omega
  have hres : (UInt8.ofNat (p.bytes.length % 8)).toNat = p.bytes.length % 8 := by
    rw [UInt8.toNat_ofNat']
    omega
  have hsize := c.toInt_size
  have hlt := c.size_lt
  obtain ⟨buf, hdec, hbuf⟩ := decrypt_of_ecb hinv heap hkey hmod hc
  rw [hdec]
  refine newByteArray_eq_ok ?_ fun i hi => ?_
  · rw [toInt_decryptSize_of_lt (by omega) (by omega)]
    omega
  · rw [hbuf i (by simp only [List.length_append]; omega), List.getElem_append_left hi]

end Trailer

theorem decrypt_trailer_three :
    decrypt sampleDes3 (fun _ => 0xAA) sampleKey
      ⟨[-8, 0x5d, -65, 0x35, -4, 0x7b, 0x77, -68], by decide⟩ = .ok sampleThree :=
  decrypt_trailer (tableDes3_inverse _) _ rfl (show [0, 0, 0, 0].length = 7 - 3 % 8 from rfl)
    (by decide +kernel)

end Fclient.Verify
