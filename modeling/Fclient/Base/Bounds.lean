import Mathlib.Tactic.TypeStar

/-!
# Accesses checked against the size of a buffer

`checkRange` rejects an access that leaves the buffer. A loop whose accesses are checked in every
step gives what the unchecked loop gives (`foldlM_ok`), and a loop that succeeds has had no access
rejected (`foldl_of_foldlM`).
-/

namespace Fclient.Base

/-- An access to `length` cells from `offset` on that is not inside the buffer. -/
structure OutOfRange where
  offset : Int
  length : Nat
  deriving DecidableEq, Repr

def checkRange (size offset : Int) (length : Nat) : Except OutOfRange Unit :=
  if 0 ≤ offset ∧ offset + length ≤ size then .ok () else .error ⟨offset, length⟩

theorem checkRange_of_le {size offset : Int} {length : Nat} (h0 : 0 ≤ offset)
    (h : offset + length ≤ size) : checkRange size offset length = .ok () :=
  if_pos ⟨h0, h⟩

theorem checkRange_of_gt {size offset : Int} {length : Nat} (h : size < offset + length) :
    checkRange size offset length = .error ⟨offset, length⟩ :=
  if_neg fun hin => absurd hin.2 (Int.not_le.2 h)

section Except

universe u

variable {α ε : Type*} {σ τ : Type u}

theorem bind_eq_ok {x : Except ε σ} {f : σ → Except ε τ} {t : τ} :
    (x >>= f) = .ok t ↔ ∃ s, x = .ok s ∧ f s = .ok t := by
  cases x with
  | ok s => simp [bind, Except.bind]
  | error e => simp [bind, Except.bind]

/-- A loop whose steps all succeed. -/
theorem foldlM_ok {f : σ → α → Except ε σ} {g : σ → α → σ} {l : List α}
    (h : ∀ a ∈ l, ∀ s, f s a = .ok (g s a)) (s : σ) : l.foldlM f s = .ok (l.foldl g s) := by
  induction l generalizing s with
  | nil => rfl
  | cons a l ih =>
    rw [List.foldlM_cons, h a List.mem_cons_self]
    exact ih (fun b hb => h b (List.mem_cons_of_mem a hb)) (g s a)

theorem foldl_of_foldlM {f : σ → α → Except ε σ} {g : σ → α → σ}
    (h : ∀ s a t, f s a = .ok t → g s a = t) {l : List α} {s t : σ}
    (hrun : l.foldlM f s = .ok t) : l.foldl g s = t := by
  induction l generalizing s with
  | nil =>
    cases hrun
    rfl
  | cons a l ih =>
    rw [List.foldlM_cons, bind_eq_ok] at hrun
    obtain ⟨u, hu, hrest⟩ := hrun
    rw [List.foldl_cons, h s a u hu]
    exact ih hrest

end Except

end Fclient.Base
