import Mathlib.Algebra.BigOperators.Group.List.Basic
import Mathlib.Algebra.Group.End
import Mathlib.Data.List.Nodup

/-!
# Shuffling by swaps

A pass over a list of positions that swaps each of them with a position chosen for it. Every pass is
a permutation (`shuffle_eq_comp`), and the choices reach every permutation that moves nothing
outside the list (`exists_choices`): the position at hand can be given its final content, after
which it is never the turn of that position again.
-/

namespace Fclient.Base

variable {ι α : Type*} [DecidableEq ι]

/-- The permutation of a pass with the choices `idx`, first swap first. -/
def swaps (idx : ι → ι) (l : List ι) : Equiv.Perm ι := (l.map fun i => Equiv.swap (idx i) i).prod

theorem swaps_cons (idx : ι → ι) (i : ι) (l : List ι) :
    swaps idx (i :: l) = Equiv.swap (idx i) i * swaps idx l := List.prod_cons

theorem swaps_congr {idx idx' : ι → ι} {l : List ι} (h : ∀ i ∈ l, idx i = idx' i) :
    swaps idx l = swaps idx' l := by
  unfold swaps
  congr 1
  exact List.map_congr_left fun i hi => by rw [h i hi]

theorem swaps_update {idx : ι → ι} {i j : ι} {l : List ι} (hi : i ∉ l) :
    swaps (Function.update idx i j) l = swaps idx l :=
  swaps_congr fun k hk => Function.update_of_ne (by rintro rfl; exact hi hk) j idx

/-- One pass over the contents `f` of the positions. -/
def shuffle (idx : ι → ι) (l : List ι) (f : ι → α) : ι → α :=
  l.foldl (fun f i => Function.update (Function.update f (idx i) (f i)) i (f (idx i))) f

theorem shuffle_eq_comp (idx : ι → ι) (l : List ι) (f : ι → α) :
    shuffle idx l f = f ∘ swaps idx l := by
  induction l generalizing f with
  | nil => rfl
  | cons i l ih =>
    have hswap := Equiv.comp_swap_eq_update i (idx i) f
    unfold shuffle at ih ⊢
    rw [List.foldl_cons, ih, ← hswap, swaps_cons, Equiv.swap_comm (idx i) i, Equiv.Perm.coe_mul]
    rfl

/-- A pass over distinct contents is one permutation of them. -/
theorem existsUnique_shuffle {f : ι → α} (hf : Function.Injective f) (idx : ι → ι) (l : List ι) :
    ∃! σ : Equiv.Perm ι, shuffle idx l f = f ∘ σ := by
  refine ⟨swaps idx l, shuffle_eq_comp idx l f, fun σ hσ => Equiv.ext fun i => hf ?_⟩
  have hi := congrFun ((shuffle_eq_comp idx l f).symm.trans hσ) i
  exact hi.symm

/-- What is left to do once position `i` has its final content. -/
theorem swap_mul_eq_self {σ : Equiv.Perm ι} {i : ι} {l : List ι}
    (h : ∀ j, j ∉ i :: l → σ j = j) {j : ι} (hj : j ∉ l) : (Equiv.swap (σ i) i * σ) j = j := by
  rw [Equiv.Perm.mul_apply]
  by_cases hij : j = i
  · rw [hij, Equiv.swap_apply_left]
  · have hfix : σ j = j := h j (by simp [hij, hj])
    have hne : j ≠ σ i := by
      intro heq
      exact hij (σ.injective (hfix.trans heq))
    rw [hfix, Equiv.swap_apply_of_ne_of_ne hne hij]

theorem exists_choices {l : List ι} (hl : l.Nodup) {σ : Equiv.Perm ι}
    (h : ∀ i, i ∉ l → σ i = i) : ∃ idx, swaps idx l = σ := by
  induction l generalizing σ with
  | nil => exact ⟨id, (Equiv.ext fun i => h i List.not_mem_nil).symm⟩
  | cons i l ih =>
    obtain ⟨hi, hl⟩ := List.nodup_cons.1 hl
    obtain ⟨idx, hrest⟩ := ih hl fun j hj => swap_mul_eq_self h hj
    refine ⟨Function.update idx i (σ i), ?_⟩
    rw [swaps_cons, swaps_update hi, hrest, Function.update_self, ← mul_assoc,
      Equiv.swap_mul_self, one_mul]

end Fclient.Base
