import Mathlib.Algebra.Group.End
import Mathlib.Data.List.Basic

/-!
# Lists with the same repetitions

Two lists have the same pattern when they repeat their entries at the same positions. That is all a
list keeps under a renaming of its entries (`samePattern_iff`): a renaming for the tail is corrected
by a swap where the head is new.
-/

namespace Fclient.Base

variable {α : Type*}

def SamePattern (ks ds : List α) : Prop :=
  ks.length = ds.length ∧ ∀ i j : Nat, ks[i]? = ks[j]? ↔ ds[i]? = ds[j]?

namespace SamePattern

variable {k d : α} {ks ds : List α}

theorem map {f : α → α} (hf : Function.Injective f) (ks : List α) : SamePattern ks (ks.map f) := by
  refine ⟨(List.length_map f).symm, fun i j => ?_⟩
  rw [List.getElem?_map, List.getElem?_map]
  exact (Option.map_injective hf).eq_iff.symm

theorem tail (h : SamePattern (k :: ks) (d :: ds)) : SamePattern ks ds :=
  ⟨Nat.succ.inj h.1, fun i j => h.2 (i + 1) (j + 1)⟩

/-- A head that comes again does so at the same positions. -/
theorem head_iff (h : SamePattern (k :: ks) (d :: ds)) (j : Nat) :
    ks[j]? = some k ↔ ds[j]? = some d := by
  have h0 := h.2 0 (j + 1)
  rw [List.getElem?_cons_zero, List.getElem?_cons_zero, List.getElem?_cons_succ,
    List.getElem?_cons_succ] at h0
  rw [eq_comm, h0, eq_comm]

theorem mem_iff (h : SamePattern (k :: ks) (d :: ds)) : k ∈ ks ↔ d ∈ ds := by
  rw [List.mem_iff_getElem?, List.mem_iff_getElem?]
  exact exists_congr h.head_iff

end SamePattern

variable [DecidableEq α]

theorem exists_perm_of_samePattern {ks ds : List α} (h : SamePattern ks ds) :
    ∃ σ : Equiv.Perm α, ks.map σ = ds := by
  induction ks generalizing ds with
  | nil =>
    refine ⟨1, ?_⟩
    rw [List.map_nil, List.eq_nil_of_length_eq_zero h.1.symm]
  | cons k ks ih =>
    obtain ⟨d, ds, rfl⟩ := List.exists_cons_of_length_eq_add_one h.1.symm
    obtain ⟨σ, hσ⟩ := ih h.tail
    by_cases hk : k ∈ ks
    · obtain ⟨j, hj⟩ := List.mem_iff_getElem?.1 hk
      have hd := (h.head_iff j).1 hj
      rw [← hσ, List.getElem?_map, hj, Option.map_some, Option.some.injEq] at hd
      exact ⟨σ, by rw [List.map_cons, hd, hσ]⟩
    · have hd : d ∉ ds := fun hd => hk (h.mem_iff.2 hd)
      refine ⟨Equiv.swap (σ k) d * σ, ?_⟩
      rw [List.map_cons, Equiv.Perm.mul_apply, Equiv.swap_apply_left, ← hσ]
      congr 1
      refine List.map_congr_left fun x hx => ?_
      have hxk : σ x ≠ σ k := fun e => hk (σ.injective e ▸ hx)
      have hxd : σ x ≠ d := fun e => hd (e ▸ hσ ▸ List.mem_map_of_mem hx)
      rw [Equiv.Perm.mul_apply, Equiv.swap_apply_of_ne_of_ne hxk hxd]

/-- **Patterns and renamings.** -/
theorem samePattern_iff {ks ds : List α} :
    SamePattern ks ds ↔ ∃ σ : Equiv.Perm α, ks.map σ = ds := by
  constructor
  · exact exists_perm_of_samePattern
  · rintro ⟨σ, rfl⟩
    exact SamePattern.map σ.injective ks

end Fclient.Base
