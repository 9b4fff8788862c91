import Mathlib.Algebra.Group.Int.Defs
import Mathlib.Algebra.Group.Nat.Defs

/-!
# 32-bit arithmetic that does not overflow

`Fits x`: the integer `x` is a value of a 32-bit two's complement type. An `Int32` operation
computes the integer result wherever that result fits.
-/

namespace Fclient.Base

/-- `x` is representable in 32 bits, two's complement. -/
def Fits (x : Int) : Prop := -2 ^ 31 ≤ x ∧ x < 2 ^ 31

instance (x : Int) : Decidable (Fits x) := inferInstanceAs (Decidable (_ ∧ _))

theorem Fits.bmod {x : Int} (h : Fits x) : x.bmod (2 ^ 32) = x := by
  obtain ⟨h1, h2⟩ := h
  exact Int.bmod_eq_of_le_mul_two (by omega) (by omega)

theorem toInt_add_of_fits {a b : Int32} (h : Fits (a.toInt + b.toInt)) :
    (a + b).toInt = a.toInt + b.toInt := by
  rw [Int32.toInt_add, h.bmod]

/-- A sum past the end of the range wraps once. -/
theorem toInt_add_of_ge {a b : Int32} (h : 2 ^ 31 ≤ a.toInt + b.toInt) :
    (a + b).toInt = a.toInt + b.toInt - 2 ^ 32 := by
  have ha := a.toInt_lt
  have hb := b.toInt_lt
  rw [Int32.toInt_add, Int.bmod_def]
  split <;> omega

theorem toInt_sub_of_fits {a b : Int32} (h : Fits (a.toInt - b.toInt)) :
    (a - b).toInt = a.toInt - b.toInt := by
  rw [Int32.toInt_sub, h.bmod]

theorem toInt_mul_of_fits {a b : Int32} (h : Fits (a.toInt * b.toInt)) :
    (a * b).toInt = a.toInt * b.toInt := by
  rw [Int32.toInt_mul, h.bmod]

theorem toInt_mod_of_nonneg {a : Int32} (h : 0 ≤ a.toInt) (b : Int32) :
    (a % b).toInt = a.toInt % b.toInt := by
  rw [Int32.toInt_mod, Int.tmod_eq_emod_of_nonneg h]

theorem toInt_div_of_nonneg {a b : Int32} (ha : 0 ≤ a.toInt) (hb : 0 ≤ b.toInt) :
    (a / b).toInt = a.toInt / b.toInt := by
  have hfits : Fits (a.toInt / b.toInt) := by
    have hle := Int.ediv_le_self b.toInt ha
    have hnonneg := Int.ediv_nonneg ha hb
    have hlt := a.toInt_lt
    exact ⟨by omega, by omega⟩
  rw [Int32.toInt_div, Int.tdiv_eq_ediv_of_nonneg ha, hfits.bmod]

theorem toInt_ofNat_of_fits {n : Nat} (h : n < 2 ^ 31) : (Int32.ofNat n).toInt = n :=
  Int32.toInt_ofNat_of_lt h

end Fclient.Base
