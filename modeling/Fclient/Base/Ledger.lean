import Fclient.Base.Run

/-!
# What is held along a run of acquisitions and releases

A ledger counts for each resource how often it is held. A release of what is not held is refused, so
that a list of uses that runs at all releases nothing twice, and one that ends with an empty ledger
forgets nothing (`Balanced`). `Neutral` lists leave every ledger as it was; they can be put together
and put between an acquisition and its release.
-/

namespace Fclient.Base

inductive Use (ρ : Type*)
  | acquire (r : ρ)
  | release (r : ρ)
  | other
  deriving DecidableEq

namespace Use

variable {ρ : Type*} [DecidableEq ρ]

def step (held : ρ → Nat) : Use ρ → Option (ρ → Nat)
  | .acquire r => some (Function.update held r (held r + 1))
  | .release r => if held r = 0 then none else some (Function.update held r (held r - 1))
  | .other => some held

/-- Nothing is released that is not held, and nothing is held at the end. -/
def Balanced (uses : List (Use ρ)) : Prop := run step (fun _ => 0) uses = some fun _ => 0

def Neutral (uses : List (Use ρ)) : Prop := ∀ held, run step held uses = some held

theorem step_count {held held' : ρ → Nat} {u : Use ρ} (h : step held u = some held') (r : ρ) :
    held' r + [u].count (.release r) = held r + [u].count (.acquire r) := by
  cases u with
  | acquire s =>
    cases h
    by_cases hr : r = s
    · subst hr
      simp
    · simp [Function.update_of_ne hr, Ne.symm hr]
  | release s =>
    simp only [step] at h
    split at h
    · cases h
    · cases h
      by_cases hr : r = s
      · subst hr
        simp
        omega
      · simp [Function.update_of_ne hr, Ne.symm hr]
  | other =>
    cases h
    simp

/-- **Conservation.** What is held at the end is what was held before and acquired since, less what
was released. -/
theorem run_count {uses : List (Use ρ)} {held held' : ρ → Nat}
    (h : run step held uses = some held') (r : ρ) :
    held' r + uses.count (.release r) = held r + uses.count (.acquire r) := by
  induction uses generalizing held with
  | nil =>
    cases h
    rfl
  | cons u uses ih =>
    rw [run_cons, Option.bind_eq_some_iff] at h
    obtain ⟨mid, hmid, hrest⟩ := h
    have hhead := step_count hmid r
    have htail := ih hrest
    rw [← List.singleton_append, List.count_append, List.count_append]
    omega

theorem Balanced.count {uses : List (Use ρ)} (h : Balanced uses) (r : ρ) :
    uses.count (.release r) = uses.count (.acquire r) := by
  have hcount := run_count h r
  omega

theorem neutral_other : Neutral ([.other] : List (Use ρ)) := fun _ => rfl

theorem neutral_nil : Neutral ([] : List (Use ρ)) := fun _ => rfl

theorem Neutral.append {us vs : List (Use ρ)} (hu : Neutral us) (hv : Neutral vs) :
    Neutral (us ++ vs) := by
  intro held
  rw [run_append, hu held]
  exact hv held

theorem neutral_flatMap {α : Type*} {f : α → List (Use ρ)} (h : ∀ a, Neutral (f a)) (l : List α) :
    Neutral (l.flatMap f) := by
  induction l with
  | nil => exact neutral_nil
  | cons a l ih =>
    rw [List.flatMap_cons]
    exact (h a).append ih

theorem balanced_insert {us ns vs : List (Use ρ)} (h : Neutral ns) :
    Balanced (us ++ ns ++ vs) ↔ Balanced (us ++ vs) := by
  have hdrop : (fun held => (run step held ns).bind fun held => run step held vs) =
      fun held => run step held vs := funext fun held => by rw [h held, Option.bind_some]
  unfold Balanced
  rw [List.append_assoc, run_append, run_append _ _ us vs]
  simp only [run_append, hdrop]

theorem neutral_pair (r : ρ) : Neutral [.acquire r, .release r] := by
  intro held
  simp [step]

end Use

end Fclient.Base
