import Fclient.Base.Memory
import Mathlib.Data.List.Basic

/-!
# The Java types that cross the native interface

`jint` and `jsize` are 32-bit and `jbyte` is 8-bit two's complement, a Java `char` is a UTF-16 code
unit. Native code sees a `jbyte` as the `uint8_t` of the same bits. A byte array never has more
than `2^31 - 1` elements, which is what lets its length be a `jsize`.
-/

namespace Fclient

open Base

abbrev JInt := Int32

abbrev JSize := Int32

abbrev JByte := Int8

abbrev JChar := UInt16

/-- A `java.lang.String`: its UTF-16 code units. -/
abbrev JString := List JChar

/-- A literal of the source, all of whose characters are single code units. -/
def jstr (s : String) : JString := s.toList.map fun c => UInt16.ofNat c.toNat

@[ext] structure JByteArray where
  bytes : List JByte
  size_lt : bytes.length < 2 ^ 31
  deriving DecidableEq

/-- What native code can fail with before it returns an array. -/
inductive NativeFault
  /-- `new uint8_t[n]` with a negative `n` asks for more memory than there is: `std::bad_alloc`. -/
  | badAlloc (n : JInt)
  /-- `NewByteArray` with a negative length. -/
  | negativeArraySize (n : JSize)
  deriving DecidableEq, Repr

namespace JByteArray

def empty : JByteArray := ⟨[], by decide⟩

def size (a : JByteArray) : JSize := Int32.ofNat a.bytes.length

def elements (a : JByteArray) : List UInt8 := a.bytes.map Int8.toUInt8

theorem toInt_size (a : JByteArray) : a.size.toInt = a.bytes.length :=
  Int32.toInt_ofNat_of_lt a.size_lt

@[simp] theorem length_elements (a : JByteArray) : a.elements.length = a.bytes.length := by
  simp [elements]

theorem elements_injective {a b : JByteArray} (h : a.elements = b.elements) : a = b := by
  have hbytes := congrArg (List.map UInt8.toInt8) h
  simp only [elements, List.map_map] at hbytes
  have hid : UInt8.toInt8 ∘ Int8.toUInt8 = id := funext Int8.toInt8_toUInt8
  rw [hid, List.map_id, List.map_id] at hbytes
  exact JByteArray.ext hbytes

end JByteArray

/-- `new uint8_t[n]`: the block is not initialised, its cells hold what the heap held before. -/
def newUint8 (n : JInt) (heap : Memory UInt8) : Except NativeFault (Memory UInt8) :=
  if n < 0 then .error (.badAlloc n) else .ok heap

/-- `NewByteArray(sz)` filled by `SetByteArrayRegion(dout, 0, sz, buf)`, which reads `sz` cells from
the start of the buffer wherever the buffer ends. -/
def newByteArray (sz : JSize) (buf : Memory UInt8) : Except NativeFault JByteArray :=
  if sz < 0 then .error (.negativeArraySize sz)
  else .ok {
    bytes := (buf.read sz.toNatClampNeg).map UInt8.toInt8
    size_lt := by
      rw [List.length_map, Memory.length_read]
      exact Int32.toNatClampNeg_lt sz }

theorem newUint8_of_nonneg {n : JInt} (h : 0 ≤ n.toInt) (heap : Memory UInt8) :
    newUint8 n heap = .ok heap := by
  unfold newUint8
  rw [if_neg]
  rw [Int32.lt_iff_toInt_lt]
  simpa using h

/-- A returned array holds exactly the cells read from the buffer. -/
theorem elements_of_newByteArray {sz : JSize} {buf : Memory UInt8} {out : JByteArray}
    (h : newByteArray sz buf = .ok out) :
    0 ≤ sz.toInt ∧ out.elements = buf.read sz.toInt.toNat := by
  unfold newByteArray at h
  split at h
  · cases h
  · rename_i hneg
    rw [Int32.lt_iff_toInt_lt] at hneg
    cases h
    refine ⟨by simpa using hneg, ?_⟩
    simp [JByteArray.elements, Function.comp_def]

theorem newByteArray_of_nonneg {sz : JSize} (h : 0 ≤ sz.toInt) (buf : Memory UInt8) :
    ∃ out, newByteArray sz buf = .ok out ∧ out.elements = buf.read sz.toInt.toNat := by
  cases e : newByteArray sz buf with
  | ok out => exact ⟨out, rfl, (elements_of_newByteArray e).2⟩
  | error fault =>
    unfold newByteArray at e
    split at e
    · rename_i hneg
      rw [Int32.lt_iff_toInt_lt] at hneg
      exact absurd hneg (by simpa using h)
    · cases e

theorem newByteArray_ok_iff {sz : JSize} {buf : Memory UInt8} :
    (∃ out, newByteArray sz buf = .ok out) ↔ 0 ≤ sz.toInt := by
  constructor
  · rintro ⟨out, hout⟩
    exact (elements_of_newByteArray hout).1
  · intro hnonneg
    obtain ⟨out, hout, -⟩ := newByteArray_of_nonneg hnonneg buf
    exact ⟨out, hout⟩

/-- The buffer holds the array from its start on. -/
theorem newByteArray_eq_ok {sz : JSize} {buf : Memory UInt8} {a : JByteArray}
    (hsz : sz.toInt = a.bytes.length)
    (hbuf : ∀ i (h : i < a.elements.length), buf i = a.elements[i]) :
    newByteArray sz buf = .ok a := by
  have hnonneg : 0 ≤ sz.toInt := by omega
  obtain ⟨out, hout, helements⟩ := newByteArray_of_nonneg hnonneg buf
  rw [hsz, Int.toNat_natCast] at helements
  rw [hout]
  congr 1
  apply JByteArray.elements_injective
  rw [helements, Memory.read_eq_iff]
  exact ⟨a.length_elements, hbuf⟩

end Fclient
