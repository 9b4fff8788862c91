import Fclient.Jni

/-!
# The native cipher: `encrypt` and `decrypt` of `native-lib.cpp`

Two-key triple DES in ECB mode over mbedtls. The library is a parameter (`Des3`): its key schedules
and its block function, all of which succeed. The buffer that `new uint8_t[sz]` returns is not
initialised; `heap` is what the memory around its address holds before. A store past the end of the
buffer changes that memory and not the buffer, a read past the end returns that memory.
-/

namespace Fclient.Native

open Base

/-- The 8 bytes `mbedtls_des3_crypt_ecb` reads and writes. -/
abbrev Block := Fin 8 → UInt8

structure Des3 (Ctx : Type) where
  set2keyEnc : List UInt8 → Ctx
  set2keyDec : List UInt8 → Ctx
  cryptEcb : Ctx → Block → Block

namespace Des3

variable {Ctx : Type} (lib : Des3 Ctx)

def encBlock (key : JByteArray) : Block → Block := lib.cryptEcb (lib.set2keyEnc key.elements)

def decBlock (key : JByteArray) : Block → Block := lib.cryptEcb (lib.set2keyDec key.elements)

/-- The decryption schedule of a key inverts its encryption schedule. -/
def Inverse : Prop := ∀ key, Function.LeftInverse (lib.decBlock key) (lib.encBlock key)

end Des3

/-! ## Sizes and offsets -/

/-- `int rst = dsz % 8;` -/
def residue (dsz : JInt) : JInt := dsz % 8

/-- `int sz = dsz + 8 - rst;` -/
def encryptSize (dsz : JInt) : JInt := dsz + 8 - residue dsz

/-- `int cn = sz / 8;` -/
def blockCount (sz : JInt) : JInt := sz / 8

/-- The `dsz + i` of the padding loop. -/
def padOffset (dsz : JInt) (i : Nat) : JInt := dsz + Int32.ofNat i

/-- The `i * 8` of the block loops. -/
def blockOffset (i : Nat) : JInt := Int32.ofNat i * 8

/-- The `dsz - 1` of `buf[dsz - 1]`. -/
def lastOffset (dsz : JInt) : JInt := dsz - 1

/-- `int sz = dsz - 8 + buf[dsz - 1];`, where `t` is the byte read. -/
def decryptSize (dsz : JInt) (t : UInt8) : JInt := dsz - 8 + Int32.ofNat t.toNat

/-! ## The functions -/

/-- `for (int i = 7; i > rst; i--) buf[dsz + i] = rst;`, entered with `i`. -/
def padLoop (dsz rst : JInt) : Nat → Memory UInt8 → Memory UInt8
  | 0, buf => buf
  | i + 1, buf =>
    if rst < Int32.ofNat (i + 1) then
      padLoop dsz rst i (buf.store (padOffset dsz (i + 1)).toInt rst.toUInt32.toUInt8)
    else buf

/-- `for (int i = 0; i < cn; i++) mbedtls_des3_crypt_ecb(&ctx, buf + i * 8, buf + i * 8);` -/
def cryptLoop (f : Block → Block) (cn : JInt) (buf : Memory UInt8) : Memory UInt8 :=
  (List.range cn.toNatClampNeg).foldl (fun buf i =>
    let off := (blockOffset i).toInt
    buf.storeBlock off (f (buf.loadBlock 8 off))) buf

/-- The buffer as the block loop of `encrypt` finds it: padded first, then the data copied in. -/
def fillBuffer (data : JByteArray) (buf : Memory UInt8) : Memory UInt8 :=
  let dsz := data.size
  let rst := residue dsz
  (padLoop dsz rst 7 buf).storeList data.elements

def encrypt {Ctx : Type} (lib : Des3 Ctx) (heap : Memory UInt8) (key data : JByteArray) :
    Except NativeFault JByteArray :=
  let ksz := key.size
  let dsz := data.size
  if ksz ≠ 16 ∨ dsz ≤ 0 then .ok JByteArray.empty
  else do
    let sz := encryptSize dsz
    let buf ← newUint8 sz heap
    let buf := fillBuffer data buf
    let ctx := lib.set2keyEnc key.elements
    let cn := blockCount sz
    let buf := cryptLoop (lib.cryptEcb ctx) cn buf
    newByteArray sz buf

def decrypt {Ctx : Type} (lib : Des3 Ctx) (heap : Memory UInt8) (key data : JByteArray) :
    Except NativeFault JByteArray :=
  let ksz := key.size
  let dsz := data.size
  if ksz ≠ 16 ∨ dsz ≤ 0 ∨ dsz % 8 ≠ 0 then .ok JByteArray.empty
  else do
    let buf ← newUint8 dsz heap
    let buf := buf.storeList data.elements
    let ctx := lib.set2keyDec key.elements
    let cn := blockCount dsz
    let buf := cryptLoop (lib.cryptEcb ctx) cn buf
    let sz := decryptSize dsz (buf (lastOffset dsz).toInt)
    newByteArray sz buf

/-! ## What the block loops are meant to compute -/

def blockOf (l : List UInt8) (i : Nat) : Block := fun k => l.getD (i * 8 + k) 0

def ecb (f : Block → Block) (l : List UInt8) : List UInt8 :=
  (List.range (l.length / 8)).flatMap fun i => List.ofFn (f (blockOf l i))

end Fclient.Native
