import Mathlib.Algebra.Group.Nat.Defs
import Mathlib.Data.List.Basic

/-!
# PKCS padding

`pkcsPad n` fills up to whole blocks of `n` bytes with `k` bytes of value `k`; there is always at
least one. `pkcsUnpad n` is what a receiver does: it reads the count off the last byte, checks all
of the padding and removes it. For block sizes that fit a byte it undoes the padding.
-/

namespace Fclient.Base

def pkcsPad (n : Nat) (l : List UInt8) : List UInt8 :=
  let k := n - l.length % n
  l ++ List.replicate k (UInt8.ofNat k)

def pkcsUnpad (n : Nat) (l : List UInt8) : Option (List UInt8) :=
  match l.getLast? with
  | none => none
  | some b =>
    let k := b.toNat
    let size := l.length - k
    if 0 < k ∧ k ≤ n ∧ l.drop size = List.replicate k b then some (l.take size) else none

variable {n : Nat}

theorem length_pkcsPad (l : List UInt8) :
    (pkcsPad n l).length = l.length + (n - l.length % n) := by
  simp [pkcsPad]

theorem getElem_pkcsPad_of_lt {l : List UInt8} {i : Nat} (hi : i < l.length)
    (hi' : i < (pkcsPad n l).length) : (pkcsPad n l)[i] = l[i] :=
  List.getElem_append_left hi

theorem getElem_pkcsPad_of_ge {l : List UInt8} {i : Nat} (hi : l.length ≤ i)
    (hi' : i < (pkcsPad n l).length) : (pkcsPad n l)[i] = UInt8.ofNat (n - l.length % n) :=
  (List.getElem_append_right hi).trans (List.getElem_replicate _)

theorem length_pkcsPad_mod (hn : 0 < n) (l : List UInt8) : (pkcsPad n l).length % n = 0 := by
  have hlt := Nat.mod_lt l.length hn
  have hdiv := Nat.div_add_mod l.length n
  have hlen : (pkcsPad n l).length = n * (l.length / n + 1) := by
    rw [length_pkcsPad, Nat.mul_add, Nat.mul_one]
    omega
  rw [hlen, Nat.mul_mod_right]

/-- **A receiver recovers the data.** -/
theorem pkcsUnpad_pkcsPad (hn : 0 < n) (hfit : n < 2 ^ 8) (l : List UInt8) :
    pkcsUnpad n (pkcsPad n l) = some l := by
  have hlt := Nat.mod_lt l.length hn
  have hval : (UInt8.ofNat (n - l.length % n)).toNat = n - l.length % n := by
    rw [UInt8.toNat_ofNat', Nat.mod_eq_of_lt (by omega)]
  have hlast : (pkcsPad n l).getLast? = some (UInt8.ofNat (n - l.length % n)) := by
    rw [pkcsPad, List.getLast?_append, List.getLast?_replicate, if_neg (by omega)]
    rfl
  have hsize : (pkcsPad n l).length - (n - l.length % n) = l.length := by
    rw [length_pkcsPad, Nat.add_sub_cancel]
  simp only [pkcsUnpad, hlast, hval, hsize]
  rw [pkcsPad, List.drop_left, List.take_left, if_pos ⟨by omega, by omega, rfl⟩]

end Fclient.Base
