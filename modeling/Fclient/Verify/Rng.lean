import Fclient.Base.Run
import Fclient.Native.Rng

/-!
# Stale memory in random arrays

`randomBytes` returns an array of the length asked for whatever mbedtls answers. The array is DRBG
output exactly when the request succeeded (`freshCall_iff`), so over whole runs it always is exactly
in the runs without a failed request (`fresh_run_iff`).
-/

namespace Fclient.Verify

open Base Native

section Fresh

variable {σ ε : Type} (lib : CtrDrbg σ ε)

/-- The array a call returns does not depend on the prior content of its buffer, and an array of the
length asked for is the output of a successful request. -/
def FreshCall (s : σ) : RngCall ε → Prop
  | .initRng _ => True
  | .randomBytes e no => 0 ≤ no.toInt →
    (∀ heap₁ heap₂ : Memory UInt8,
      (randomBytes lib s e heap₁ no).1 = (randomBytes lib s e heap₂ no).1) ∧
    ∀ heap out, (randomBytes lib s e heap no).1 = .ok out → out.bytes.length = no.toInt.toNat →
      ∃ output, (lib.random s e no.toInt.toNat).1 = .ok output ∧ out.elements = List.ofFn output

def Succeeds (s : σ) : RngCall ε → Prop
  | .initRng _ => True
  | .randomBytes e no => 0 ≤ no.toInt →
    ∃ output, (lib.random s e no.toInt.toNat).1 = .ok output

def outputOf {n : Nat} : DrbgResult n → Memory UInt8 → Memory UInt8
  | .ok output, buf => buf.storeBlock 0 output
  | .failed _ _ output, buf => output buf

theorem randomBytes_eq {no : JInt} (h : 0 ≤ no.toInt) (s : σ) (e : ε) (heap : Memory UInt8) :
    (randomBytes lib s e heap no).1 =
      newByteArray no (outputOf (lib.random s e no.toInt.toNat).1 heap) := by
  unfold randomBytes
  rw [newUint8_of_nonneg h]
  cases hres : lib.random s e no.toNatClampNeg with
  | mk res s' =>
    rw [Int32.toNat_toInt, hres]
    cases res <;> rfl

theorem length_randomBytes {no : JInt} (h : 0 ≤ no.toInt) (s : σ) (e : ε) (heap : Memory UInt8) :
    ∃ out, (randomBytes lib s e heap no).1 = .ok out ∧ out.bytes.length = no.toInt.toNat := by
  rw [randomBytes_eq lib h]
  obtain ⟨out, hout, helements⟩ := newByteArray_of_nonneg h
    (outputOf (lib.random s e no.toInt.toNat).1 heap)
  exact ⟨out, hout, by rw [← out.length_elements, helements, Memory.length_read]⟩

theorem read_storeBlock {n : Nat} (buf : Memory UInt8) (output : Fin n → UInt8) :
    (buf.storeBlock 0 output).read n = List.ofFn output := by
  rw [Memory.read_eq_iff]
  refine ⟨List.length_ofFn, fun i hi => ?_⟩
  rw [List.length_ofFn] at hi
  have hcell := Memory.storeBlock_apply_add buf 0 output ⟨i, hi⟩
  rw [List.getElem_ofFn, ← hcell, Int.zero_add]

/-- **One call**: the array is fresh exactly when the request succeeds. -/
theorem freshCall_iff (s : σ) (call : RngCall ε) : FreshCall lib s call ↔ Succeeds lib s call := by
  cases call with
  | initRng e => exact Iff.rfl
  | randomBytes e no =>
    constructor
    · intro hfresh hno
      obtain ⟨out, hout, hlen⟩ := length_randomBytes lib hno s e fun _ => 0
      obtain ⟨output, hok, -⟩ := (hfresh hno).2 _ out hout hlen
      exact ⟨output, hok⟩
    · intro hsucc hno
      obtain ⟨output, hok⟩ := hsucc hno
      have hread : ∀ heap out, (randomBytes lib s e heap no).1 = .ok out →
          out.elements = List.ofFn output := by
        intro heap out hout
        rw [randomBytes_eq lib hno, hok] at hout
        rw [(elements_of_newByteArray hout).2]
        exact read_storeBlock heap output
      refine ⟨fun heap₁ heap₂ => ?_, fun heap out hout _ => ⟨output, hok, hread heap out hout⟩⟩
      obtain ⟨out₁, hout₁, -⟩ := length_randomBytes lib hno s e heap₁
      obtain ⟨out₂, hout₂, -⟩ := length_randomBytes lib hno s e heap₂
      have hsame : out₁ = out₂ := JByteArray.elements_injective
        ((hread heap₁ out₁ hout₁).trans (hread heap₂ out₂ hout₂).symm)
      rw [hout₁, hout₂, hsame]

/-- **Whole runs** of `initRng` and `randomBytes`, in any order: every returned array is fresh
exactly when no request failed on the way. -/
theorem fresh_run_iff (calls : List (RngCall ε)) :
    Along (rngStep lib) (FreshCall lib) lib.zero calls ↔
      Along (rngStep lib) (Succeeds lib) lib.zero calls :=
  along_congr (freshCall_iff lib) lib.zero calls

/-- The key that `onCreate` generates, whether seeding succeeded or not. -/
theorem onCreateKeys_fresh_iff (e e' : ε) :
    Along (rngStep lib) (FreshCall lib) lib.zero [.initRng e, .randomBytes e' 16] ↔
      ∃ output, (lib.random (initRng lib e).2 e' 16).1 = .ok output ∧
        ∀ heap, ∃ out, onCreateKeys lib e e' heap = .ok out ∧ out.elements = List.ofFn output := by
  have h16 : (16 : JInt).toInt = (16 : Nat) := rfl
  have hcall := freshCall_iff lib (initRng lib e).2 (.randomBytes e' 16)
  constructor
  · rintro ⟨-, hrest⟩
    have hfresh := (hrest _ rfl).1
    obtain ⟨output, hok⟩ := hcall.1 hfresh (by decide)
    refine ⟨output, hok, fun heap => ?_⟩
    obtain ⟨out, hout, hlen⟩ := length_randomBytes lib (by decide : 0 ≤ (16 : JInt).toInt)
      (initRng lib e).2 e' heap
    obtain ⟨output', hok', helements⟩ := (hfresh (by decide)).2 heap out hout hlen
    rw [hok] at hok'
    cases hok'
    exact ⟨out, hout, helements⟩
  · rintro ⟨output, hok, -⟩
    refine ⟨trivial, fun t ht => ⟨?_, fun _ _ => trivial⟩⟩
    cases ht
    exact hcall.2 fun _ => ⟨output, hok⟩

end Fresh

/-- A generator that can always be seeded, with the default limit of 1024 bytes a request; one above
it leaves the buffer alone. -/
def sampleDrbg : CtrDrbg Unit Unit where
  zero := ()
  init := ()
  seed _ _ := (0, ())
  random _ _ n := (if n ≤ 1024 then .ok fun _ => 0 else .failed (-0x36) (by decide) id, ())

/-- 1025 bytes from a seeded generator: the array is what the heap held. -/
theorem randomBytes_stale :
    (randomBytes sampleDrbg () () (fun _ => 0xAA) 1025).1 ≠
        (randomBytes sampleDrbg () () (fun _ => 0x55) 1025).1 ∧
      ¬ Along (rngStep sampleDrbg) (FreshCall sampleDrbg) sampleDrbg.zero
        [.initRng (), .randomBytes () 1025] := by
  have hne : (randomBytes sampleDrbg () () (fun _ => 0xAA) 1025).1 ≠
      (randomBytes sampleDrbg () () (fun _ => 0x55) 1025).1 := by
    decide +kernel
  refine ⟨hne, fun h => ?_⟩
  have hfresh := (h.2 () rfl).1
  exact hne ((hfresh (by decide)).1 _ _)

end Fclient.Verify
