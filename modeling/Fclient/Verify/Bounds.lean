import Fclient.Native.CheckedCipher
import Fclient.Verify.RoundTrip

/-!
# Writes past the end of the buffer

The buffer of `encrypt` has `8 - rst` bytes behind the data, the padding loop starts at offset `7`
behind the data. It stays inside for the residue `0`, where there are eight bytes, and for the
residue `7`, where it does nothing; for every other residue its first store is already outside
(`encryptChecked_iff`). The copy and the block loop stay inside for every length.
-/

namespace Fclient.Verify

open Base Native

/-! ## The loops -/

section Loops

variable {sz dsz rst cn : JInt}

/-- The loop runs downwards, so that all of it is inside the buffer when its first store is. -/
theorem padLoopChecked_ok (h0 : 0 ≤ dsz.toInt) {i : Nat} (buf : Memory UInt8) (hi : i < 8)
    (hfit : dsz.toInt + i < 2 ^ 31) (h : rst.toInt < i → dsz.toInt + i < sz.toInt) :
    padLoopChecked sz dsz rst i buf = .ok (padLoop dsz rst i buf) := by
  induction i generalizing buf with
  | zero => rfl
  | succ i ih =>
    simp only [padLoopChecked, padLoop]
    split
    · rename_i hlt
      rw [Int32.lt_iff_toInt_lt, toInt_ofNat_of_fits (by omega)] at hlt
      have hin := h hlt
      rw [toInt_padOffset h0 hfit, checkRange_of_le (by omega) (by omega)]
      exact ih _ (by omega) (by omega) fun _ => by omega
    · rfl

theorem padLoopChecked_error (h0 : 0 ≤ dsz.toInt) {i : Nat} (buf : Memory UInt8) (hi : i < 7)
    (hfit : dsz.toInt + 7 < 2 ^ 31) (hlt : rst.toInt < i + 1)
    (h : sz.toInt < dsz.toInt + (i + 1 : Nat) + 1) :
    padLoopChecked sz dsz rst (i + 1) buf = .error ⟨dsz.toInt + (i + 1 : Nat), 1⟩ := by
  have hcast : (Int32.ofNat (i + 1)).toInt = (i + 1 : Nat) := toInt_ofNat_of_fits (by omega)
  simp only [padLoopChecked, Int32.lt_iff_toInt_lt, hcast]
  rw [if_pos (by omega), toInt_padOffset h0 (by omega), checkRange_of_gt (by omega)]
  rfl

theorem copyChecked_ok {l : List UInt8} (buf : Memory UInt8) (h : l.length ≤ sz.toInt) :
    copyChecked sz l buf = .ok (buf.storeList l) := by
  rw [copyChecked, checkRange_of_le (Int.le_refl 0) (by omega)]
  rfl

theorem cryptLoopChecked_ok (f : Block → Block) (buf : Memory UInt8)
    (h : cn.toInt * 8 ≤ sz.toInt) : cryptLoopChecked sz f cn buf = .ok (cryptLoop f cn buf) := by
  have hsz := sz.toInt_lt
  refine foldlM_ok (fun i hi s => ?_) buf
  have hi := List.mem_range.1 hi
  have hcn := Int32.toNat_toInt cn
  simp only [toInt_blockOffset (by omega : i * 8 < 2 ^ 31)]
  rw [checkRange_of_le (by omega) (by omega)]
  rfl

/-- The loop over a whole buffer. -/
theorem cryptLoopChecked_size (h0 : 0 ≤ sz.toInt) (f : Block → Block) (buf : Memory UInt8) :
    cryptLoopChecked sz f (blockCount sz) buf = .ok (cryptLoop f (blockCount sz) buf) := by
  have hcn := toInt_blockCount h0
  exact cryptLoopChecked_ok f buf (by omega)

end Loops

/-! ## The whole function -/

section EncryptChecked

variable {Ctx : Type} (lib : Des3 Ctx) (heap : Memory UInt8) {key data : JByteArray}
  (hkey : key.bytes.length = 16) (hpos : 0 < data.bytes.length)
  (hfit : data.bytes.length + 8 < 2 ^ 31)

include hkey hpos hfit in
/-- The guard is passed and the allocation succeeds. -/
theorem encryptChecked_eq : encryptChecked lib heap key data = (do
    let rst := residue data.size
    let sz := encryptSize data.size
    let buf ← padLoopChecked sz data.size rst 7 heap
    let buf ← copyChecked sz data.elements buf
    let buf ← cryptLoopChecked sz (lib.encBlock key) (blockCount sz) buf
    return newByteArray sz buf) := by
  have hsz := toInt_sz hfit
  have hnew : newUint8 (encryptSize data.size) heap = .ok heap :=
    newUint8_of_nonneg (by omega) heap
  unfold encryptChecked
  simp only [if_neg (not_guard hkey hpos), hnew]
  rfl

include hkey hpos hfit in
theorem encryptChecked_ok (h : data.bytes.length % 8 = 0 ∨ data.bytes.length % 8 = 7) :
    ∃ r, encryptChecked lib heap key data = .ok r := by
  have hsize := data.toInt_size
  have hrst := toInt_rst data
  have hsz := toInt_sz hfit
  unfold cipherSize at hsz
  rw [encryptChecked_eq lib heap hkey hpos hfit]
  simp only
  rw [padLoopChecked_ok (by omega) heap (by omega) (by omega) (by omega)]
  simp only [bind, Except.bind]
  rw [copyChecked_ok _ (by rw [data.length_elements]; omega)]
  simp only
  rw [cryptLoopChecked_size (by omega)]
  exact ⟨_, rfl⟩

include hkey hpos hfit in
theorem encryptChecked_error (h0 : data.bytes.length % 8 ≠ 0) (h7 : data.bytes.length % 8 ≠ 7) :
    encryptChecked lib heap key data = .error ⟨data.bytes.length + 7, 1⟩ := by
  have hsize := data.toInt_size
  have hrst := toInt_rst data
  have hsz := toInt_sz hfit
  unfold cipherSize at hsz
  rw [encryptChecked_eq lib heap hkey hpos hfit]
  simp only
  rw [padLoopChecked_error (by omega) heap (by omega : 6 < 7) (by omega) (by omega) (by omega),
    hsize]
  rfl

include hkey hpos hfit in
/-- **Writes stay inside the buffer** exactly for the data lengths of residue 0 and 7. -/
theorem encryptChecked_iff : (∀ w, encryptChecked lib heap key data ≠ .error w) ↔
    data.bytes.length % 8 = 0 ∨ data.bytes.length % 8 = 7 := by
  constructor
  · intro hsafe
    by_contra hres
    obtain ⟨h0, h7⟩ := not_or.1 hres
    exact hsafe _ (encryptChecked_error lib heap hkey hpos hfit h0 h7)
  · intro hres w herror
    obtain ⟨r, hok⟩ := encryptChecked_ok lib heap hkey hpos hfit hres
    cases hok.symm.trans herror

end EncryptChecked

/-- Eight bytes of data: every write is inside the buffer. -/
theorem encryptChecked_eight : ∃ r,
    encryptChecked sampleDes3 (fun _ => 0) sampleKey ⟨List.replicate 8 0, by decide⟩ = .ok r := by
  have hsafe := (@encryptChecked_iff _ sampleDes3 (fun _ => 0) sampleKey
    ⟨List.replicate 8 0, by decide⟩ rfl (by decide) (by decide)).2 (.inl rfl)
  cases h : encryptChecked sampleDes3 (fun _ => 0) sampleKey ⟨List.replicate 8 0, by decide⟩ with
  | ok r => exact ⟨r, rfl⟩
  | error w => exact absurd h (hsafe w)

/-- The 20 bytes of `MainActivity.onCreate`: the first store is three bytes past the end. -/
theorem encryptChecked_twenty :
    encryptChecked sampleDes3 (fun _ => 0) sampleKey ⟨List.replicate 20 0, by decide⟩ =
      .error ⟨27, 1⟩ :=
  encryptChecked_error _ _ rfl (by decide) (by decide) (by decide) (by decide)

end Fclient.Verify
