import Mathlib.Data.Nat.Prime.Basic
import Mathlib.SetTheory.Cardinal.Finite

/-!
# Uniform outcomes

A source `Ω` of equally likely draws and the outcomes `κ` they lead to: the outcomes are equally
likely when the same number of draws leads to each (`Uniform`). Where every draw has exactly one
outcome the draws are then shared out among the outcomes without a rest (`Uniform.card_dvd`), so a
prime that divides the number of outcomes divides the number of draws.
-/

namespace Fclient.Base

variable {Ω κ : Type*}

/-- `R ω k`: the draw `ω` leads to the outcome `k`. -/
def Uniform (R : Ω → κ → Prop) : Prop :=
  ∀ k l, Nat.card {ω // R ω k} = Nat.card {ω // R ω l}

section

variable [Finite Ω] [Fintype κ] {R : Ω → κ → Prop} (hex : ∀ ω, ∃! k, R ω k)
include hex

/-- Every draw is counted at its outcome and nowhere else. -/
theorem sum_card_outcomes : ∑ k, Nat.card {ω // R ω k} = Nat.card Ω := by
  choose f hf huniq using hex
  have hfiber : ∀ k, Nat.card {ω // R ω k} = Nat.card {ω // f ω = k} := by
    intro k
    refine Nat.card_congr (Equiv.subtypeEquivRight fun ω => ⟨fun h => (huniq ω k h).symm, ?_⟩)
    rintro rfl
    exact hf ω
  calc ∑ k, Nat.card {ω // R ω k}
      = ∑ k, Nat.card {ω // f ω = k} := Finset.sum_congr rfl fun k _ => hfiber k
    _ = Nat.card (Σ k, {ω // f ω = k}) := Nat.card_sigma.symm
    _ = Nat.card Ω := Nat.card_congr (Equiv.sigmaFiberEquiv f)

theorem Uniform.card_dvd (h : Uniform R) : Nat.card κ ∣ Nat.card Ω := by
  rw [← sum_card_outcomes hex]
  cases isEmpty_or_nonempty κ with
  | inl hempty => rw [Nat.card_of_isEmpty, Finset.univ_eq_empty, Finset.sum_empty]
  | inr hne =>
    obtain ⟨k₀⟩ := hne
    refine ⟨Nat.card {ω // R ω k₀}, ?_⟩
    rw [Finset.sum_const_nat fun k _ => h k k₀, Finset.card_univ, Fintype.card_eq_nat_card]

/-- Draws of `n` symbols of an alphabet whose size a prime does not divide do not lead evenly to
outcomes whose number it divides. -/
theorem not_uniform {p b n : Nat} (hp : p.Prime) (hΩ : Nat.card Ω = b ^ n) (hb : ¬ p ∣ b)
    (hκ : p ∣ Nat.card κ) : ¬ Uniform R := by
  intro h
  have hdvd : p ∣ b ^ n := hΩ ▸ hκ.trans (h.card_dvd hex)
  exact hb (hp.dvd_of_dvd_pow hdvd)

end

end Fclient.Base
