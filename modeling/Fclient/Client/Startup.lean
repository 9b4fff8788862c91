import Fclient.Native.Cipher
import Fclient.Native.Rng

/-!
# The example of `MainActivity.onCreate`

When the activity is created it encrypts twenty random bytes under a fresh key, decrypts the result
and prints all four arrays as text. The bytes come from `java.util.Random`, the key from the native
generator, and what the heap holds where the native functions allocate is an input. The native
functions run in flat memory: an access past the end of a buffer reaches the bytes behind it.
-/

namespace Fclient.Client

open Base Native

/-- What `StandardCharsets.US_ASCII` reads a byte as: U+FFFD unless it is an ASCII code. -/
def usAsciiChar (b : JByte) : JChar := if b < 0 then 0xFFFD else b.toUInt8.toUInt16

/-- `new String(bytes, StandardCharsets.US_ASCII)`. -/
def usAscii (bytes : List JByte) : JString := bytes.map usAsciiChar

/-- `(byte) ((byte) random.nextInt() % 255)`: the cast comes before the remainder. -/
def dataByte (n : JInt) : JByte := (n.toInt8.toInt32 % 255).toInt8

def onCreateData (nextInt : Fin 20 → JInt) : JByteArray where
  bytes := List.ofFn fun i => dataByte (nextInt i)
  size_lt := by
    rw [List.length_ofFn]
    omega

structure Example where
  keys : JByteArray
  data : JByteArray
  encryptData : JByteArray
  decryptData : JByteArray

def Example.printed (x : Example) : List JString :=
  [jstr "Инициализированный массив - " ++ usAscii x.keys.bytes,
    jstr "Инициализированный массив 2 - " ++ usAscii x.data.bytes,
    jstr "Зашифрованный массив - " ++ usAscii x.encryptData.bytes,
    jstr "Расшифрованный массив - " ++ usAscii x.decryptData.bytes]

/-- The heap at the allocations of the three native calls. -/
structure Heaps where
  randomBytes : Memory UInt8
  encrypt : Memory UInt8
  decrypt : Memory UInt8

def onCreateExample {Ctx σ ε : Type} (des : Des3 Ctx) (drbg : CtrDrbg σ ε) (e e' : ε)
    (heaps : Heaps) (nextInt : Fin 20 → JInt) : Except NativeFault Example := do
  let keys ← onCreateKeys drbg e e' heaps.randomBytes
  let data := onCreateData nextInt
  let encryptData ← encrypt des heaps.encrypt keys data
  let decryptData ← decrypt des heaps.decrypt keys encryptData
  return ⟨keys, data, encryptData, decryptData⟩

end Fclient.Client
