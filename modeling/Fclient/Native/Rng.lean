import Fclient.Jni

/-!
# The native random bytes: `initRng` and `randomBytes` of `native-lib.cpp`

The CTR-DRBG of mbedtls is a parameter: its context, what seeding does to it, and what a request
returns. Both may fail, depending on the context and on what the entropy source delivers during the
call (`ε`). A request that fails returns a nonzero code and leaves the output buffer in a state that
mbedtls does not specify; one that succeeds has written every byte asked for.
-/

namespace Fclient.Native

open Base

inductive DrbgResult (n : Nat)
  | ok (output : Fin n → UInt8)
  | failed (code : JInt) (nonzero : code ≠ 0) (output : Memory UInt8 → Memory UInt8)

structure CtrDrbg (σ ε : Type) where
  /-- The zeroed global variable `ctr_drbg`. -/
  zero : σ
  /-- `mbedtls_ctr_drbg_init`. -/
  init : σ
  seed : σ → ε → JInt × σ
  /-- `mbedtls_ctr_drbg_random`. Total also in the zeroed context, where the library crashes: a call
  before `initRng` returns nothing there. -/
  random : σ → ε → (n : Nat) → DrbgResult n × σ

section

variable {σ ε : Type} (lib : CtrDrbg σ ε)

def initRng (e : ε) : JInt × σ := lib.seed lib.init e

/-- The return code of `mbedtls_ctr_drbg_random` is not looked at. -/
def randomBytes (s : σ) (e : ε) (heap : Memory UInt8) (no : JInt) :
    Except NativeFault JByteArray × σ :=
  match newUint8 no heap with
  | .error fault => (.error fault, s)
  | .ok buf =>
    let (res, s') := lib.random s e no.toNatClampNeg
    let buf := match res with
      | .ok output => buf.storeBlock 0 output
      | .failed _ _ output => output buf
    (newByteArray no buf, s')

inductive RngCall (ε : Type)
  | initRng (e : ε)
  | randomBytes (e : ε) (no : JInt)

/-- What a call does to the generator; the content of the heap has no part in it. -/
def rngStep (s : σ) : RngCall ε → Option σ
  | .initRng e => some (initRng lib e).2
  | .randomBytes e no => some (randomBytes lib s e (fun _ => 0) no).2

/-- `MainActivity.onCreate`: the result of `initRng` goes to a variable that nothing reads, and the
bytes are the key of `encrypt` and `decrypt`. -/
def onCreateKeys (e e' : ε) (heap : Memory UInt8) : Except NativeFault JByteArray :=
  let (_res, s) := initRng lib e
  (randomBytes lib s e' heap 16).1

end

end Fclient.Native
