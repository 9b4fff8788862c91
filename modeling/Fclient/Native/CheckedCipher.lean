import Fclient.Base.Bounds
import Fclient.Native.Cipher

/-!
# `encrypt` with checked writes

The code of `encrypt` once more, with every write to `buf` checked against the size it was allocated
with. Apart from the checks it is the same code (`encrypt_of_checked`).
-/

namespace Fclient.Native

open Base

def padLoopChecked (sz dsz rst : JInt) : Nat → Memory UInt8 → Except OutOfRange (Memory UInt8)
  | 0, buf => .ok buf
  | i + 1, buf =>
    if rst < Int32.ofNat (i + 1) then do
      let off := (padOffset dsz (i + 1)).toInt
      checkRange sz.toInt off 1
      padLoopChecked sz dsz rst i (buf.store off rst.toUInt32.toUInt8)
    else .ok buf

/-- `std::copy(pdata, pdata + dsz, buf);` -/
def copyChecked (sz : JInt) (data : List UInt8) (buf : Memory UInt8) :
    Except OutOfRange (Memory UInt8) := do
  checkRange sz.toInt 0 data.length
  return buf.storeList data

def cryptLoopChecked (sz : JInt) (f : Block → Block) (cn : JInt) (buf : Memory UInt8) :
    Except OutOfRange (Memory UInt8) :=
  (List.range cn.toNatClampNeg).foldlM (fun buf i => do
    let off := (blockOffset i).toInt
    checkRange sz.toInt off 8
    return buf.storeBlock off (f (buf.loadBlock 8 off))) buf

/-- The outer failure is a write outside the buffer, the inner one is that of `encrypt`. -/
def encryptChecked {Ctx : Type} (lib : Des3 Ctx) (heap : Memory UInt8) (key data : JByteArray) :
    Except OutOfRange (Except NativeFault JByteArray) :=
  let ksz := key.size
  let dsz := data.size
  if ksz ≠ 16 ∨ dsz ≤ 0 then .ok (.ok JByteArray.empty)
  else
    let rst := residue dsz
    let sz := encryptSize dsz
    match newUint8 sz heap with
    | .error fault => .ok (.error fault)
    | .ok buf => do
      let buf ← padLoopChecked sz dsz rst 7 buf
      let buf ← copyChecked sz data.elements buf
      let ctx := lib.set2keyEnc key.elements
      let cn := blockCount sz
      let buf ← cryptLoopChecked sz (lib.cryptEcb ctx) cn buf
      return newByteArray sz buf

/-! ## Without the checks -/

theorem padLoop_of_checked {sz dsz rst : JInt} {i : Nat} {buf buf' : Memory UInt8}
    (h : padLoopChecked sz dsz rst i buf = .ok buf') : padLoop dsz rst i buf = buf' := by
  induction i generalizing buf with
  | zero =>
    cases h
    rfl
  | succ i ih =>
    simp only [padLoopChecked] at h
    unfold padLoop
    split at h
    · obtain ⟨-, -, hrest⟩ := bind_eq_ok.1 h
      rw [if_pos ‹_›]
      exact ih hrest
    · cases h
      exact if_neg ‹_›

theorem copy_of_checked {sz : JInt} {data : List UInt8} {buf buf' : Memory UInt8}
    (h : copyChecked sz data buf = .ok buf') : buf.storeList data = buf' := by
  obtain ⟨-, -, hbuf⟩ := bind_eq_ok.1 h
  exact Except.ok.inj hbuf

theorem cryptLoop_of_checked {sz cn : JInt} {f : Block → Block} {buf buf' : Memory UInt8}
    (h : cryptLoopChecked sz f cn buf = .ok buf') : cryptLoop f cn buf = buf' := by
  refine foldl_of_foldlM (fun s i t hstep => ?_) h
  obtain ⟨-, -, ht⟩ := bind_eq_ok.1 hstep
  exact Except.ok.inj ht

/-- **Checking is all that is added**: where no write leaves the buffer, the result is that of
`encrypt`. -/
theorem encrypt_of_checked {Ctx : Type} {lib : Des3 Ctx} {heap : Memory UInt8}
    {key data : JByteArray} {r : Except NativeFault JByteArray}
    (h : encryptChecked lib heap key data = .ok r) : encrypt lib heap key data = r := by
  unfold encryptChecked at h
  unfold encrypt
  simp only at h ⊢
  split at h
  · rw [if_pos ‹_›]
    exact Except.ok.inj h
  · rw [if_neg ‹_›]
    split at h
    · rename_i fault hnew
      rw [hnew]
      exact Except.ok.inj h
    · rename_i buf hnew
      obtain ⟨buf₁, hpad, h⟩ := bind_eq_ok.1 h
      obtain ⟨buf₂, hcopy, h⟩ := bind_eq_ok.1 h
      obtain ⟨buf₃, hcrypt, h⟩ := bind_eq_ok.1 h
      have hfill : fillBuffer data buf = buf₂ := by
        rw [fillBuffer, padLoop_of_checked hpad, copy_of_checked hcopy]
      rw [hnew]
      simp only [bind, Except.bind, hfill, cryptLoop_of_checked hcrypt]
      exact Except.ok.inj h

end Fclient.Native
