import Fclient.Base.Uniform
import Fclient.Verify.Shuffle
import Mathlib.Data.BitVec
import Mathlib.Data.Finite.Perm
import Mathlib.Data.Nat.Prime.Factorial

/-!
# The bias of the shuffle

Ten random bytes are `256 ^ 10` draws, which only powers of two divide, while there are `10!`
layouts and ten keys: the draws are not shared out evenly among either of them
(`shuffleKeys_biased`). Two things in `ShuffleKeys` are at fault, each of them on its own. The
reduction modulo ten favours some keys as partners of a swap (`not_uniform_keyIndex`). And every key
swaps with any of the ten, not with one of those whose turn is still to come, so that evenly drawn
partners do not lead to even layouts either (`not_uniform_partners`).
-/

namespace Fclient.Verify

open Base Client

variable {α : Type*}

/-- Every layout comes from the same number of byte arrays. -/
def EvenLayouts (keys : Fin 10 → α) : Prop :=
  Uniform fun rnd (σ : Equiv.Perm (Fin 10)) => shuffleKeys rnd keys = keys ∘ σ

/-- The label of key `d` comes to every key for the same number of byte arrays. -/
def EvenPositions (keys : Fin 10 → α) (d : Fin 10) : Prop :=
  Uniform fun rnd i => shuffleKeys rnd keys i = keys d

/-- Every label comes to key `i` for the same number of byte arrays. -/
def EvenLabels (keys : Fin 10 → α) (i : Fin 10) : Prop :=
  Uniform fun rnd d => shuffleKeys rnd keys i = keys d

def byteEquiv : JByte ≃ Fin 256 where
  toFun b := b.toBitVec.toFin
  invFun i := Int8.ofBitVec (.ofFin i)
  left_inv b := Int8.ofBitVec_toBitVec b
  right_inv _ := rfl

instance : Finite JByte := Finite.of_equiv (Fin 256) byteEquiv.symm

theorem card_byte : Nat.card JByte = 256 := by rw [Nat.card_congr byteEquiv, Nat.card_fin]

theorem card_rnd : Nat.card (Fin 10 → JByte) = 256 ^ 10 := by
  rw [Nat.card_fun, card_byte, Nat.card_fin]

theorem card_layouts : Nat.card (Equiv.Perm (Fin 10)) = Nat.factorial 10 := by
  rw [Nat.card_perm, Nat.card_fin]

/-- The bytes 250 to 255 select the keys 0 to 5 once more. -/
theorem not_uniform_keyIndex : ¬ Uniform fun (b : JByte) k => keyIndex b = k := by
  have hcard : Nat.card JByte = 256 ^ 1 := card_byte
  refine not_uniform (fun b => ⟨keyIndex b, rfl, fun k h => h.symm⟩) Nat.prime_five hcard
    (by omega) ?_
  rw [Nat.card_fin]
  exact ⟨2, rfl⟩

section

variable {keys : Fin 10 → α} (hkeys : Function.Injective keys)
include hkeys

theorem not_uniform_partners :
    ¬ Uniform fun idx (σ : Equiv.Perm (Fin 10)) =>
      shuffle idx (List.finRange 10) keys = keys ∘ σ := by
  have hcard : Nat.card (Fin 10 → Fin 10) = 10 ^ 10 := by rw [Nat.card_fun, Nat.card_fin]
  refine not_uniform (fun idx => existsUnique_shuffle hkeys idx _) Nat.prime_seven hcard
    (by omega) ?_
  rw [card_layouts]
  exact Nat.prime_seven.dvd_factorial.2 (by omega)

theorem not_evenLayouts : ¬ EvenLayouts keys := by
  refine not_uniform (fun rnd => existsUnique_shuffle hkeys _ _) Nat.prime_three card_rnd
    (by omega) ?_
  rw [card_layouts]
  exact Nat.prime_three.dvd_factorial.2 (by omega)

theorem not_evenPositions (d : Fin 10) : ¬ EvenPositions keys d := by
  refine not_uniform (fun rnd => ?_) Nat.prime_five card_rnd (by omega) ?_
  · obtain ⟨σ, hσ, -⟩ := existsUnique_shuffle hkeys (fun i => keyIndex (rnd i)) (List.finRange 10)
    refine ⟨σ.symm d, ?_, fun i hi => ?_⟩
    · show shuffleKeys rnd keys (σ.symm d) = keys d
      rw [shuffleKeys_eq, hσ, Function.comp_apply, Equiv.apply_symm_apply]
    · rw [shuffleKeys_eq, hσ] at hi
      exact (Equiv.eq_symm_apply σ).2 (hkeys hi)
  · rw [Nat.card_fin]
    exact ⟨2, rfl⟩

theorem not_evenLabels (i : Fin 10) : ¬ EvenLabels keys i := by
  refine not_uniform (fun rnd => ?_) Nat.prime_five card_rnd (by omega) ?_
  · obtain ⟨σ, hσ, -⟩ := existsUnique_shuffle hkeys (fun i => keyIndex (rnd i)) (List.finRange 10)
    have hi : shuffleKeys rnd keys i = keys (σ i) := congrFun hσ i
    exact ⟨σ i, hi, fun d hd => (hkeys (hi.symm.trans hd)).symm⟩
  · rw [Nat.card_fin]
    exact ⟨2, rfl⟩

/-- **The shuffle is biased.** On ten different labels the layouts are not equally likely, no label
is equally likely to be on each of the keys, and no key is equally likely to carry each of the
labels. -/
theorem shuffleKeys_biased :
    ¬ EvenLayouts keys ∧ (∀ d, ¬ EvenPositions keys d) ∧ ∀ i, ¬ EvenLabels keys i :=
  ⟨not_evenLayouts hkeys, not_evenPositions hkeys, not_evenLabels hkeys⟩

end

theorem layoutLabels_injective : Function.Injective layoutLabels := by decide

/-- The labels of the activity's layout. -/
theorem layoutLabels_biased :
    Function.Injective layoutLabels ∧
      ¬ EvenLayouts layoutLabels ∧ ¬ EvenPositions layoutLabels 0 ∧ ¬ EvenLabels layoutLabels 0 :=
  have h := shuffleKeys_biased layoutLabels_injective
  ⟨layoutLabels_injective, h.1, h.2.1 0, h.2.2 0⟩

theorem layoutLabels_not_unbiased :
    ¬ (EvenLayouts layoutLabels ∧ ∀ d, EvenPositions layoutLabels d) := by
  intro h
  exact not_evenLayouts layoutLabels_injective h.1

end Fclient.Verify
