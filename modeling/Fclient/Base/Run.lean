import Mathlib.Data.List.Induction
import Mathlib.Logic.Function.Basic

/-!
# Runs of a partial labelled step function

A system is a function `step : σ → α → Option σ`: `none` where the label is not enabled in the
state. `run` executes a list of labels. `Along step ok` says that every step of a run meets `ok` in
the state it is taken from; the invariant rule `run_invariant` carries a state property through the
runs whose steps all meet such a condition. Every state a run passes through is the last state of
one of its prefixes, so a statement about the last state of all runs is one about all reached
states. A potential bounds how many steps of a kind a run can take (`countP_le_of_potential`), and a
measure that some steps always lower leads a run to its goal (`exists_run_along`).
-/

namespace Fclient.Base

variable {σ α : Type*}

/-- Execute the labels in order; `none` as soon as one of them is not enabled. -/
def run (step : σ → α → Option σ) : σ → List α → Option σ
  | s, [] => some s
  | s, a :: as => (step s a).bind fun t => run step t as

/-- Every step of the run meets `ok` in the state it is taken from. -/
def Along (step : σ → α → Option σ) (ok : σ → α → Prop) : σ → List α → Prop
  | _, [] => True
  | s, a :: as => ok s a ∧ ∀ t, step s a = some t → Along step ok t as

@[simp] theorem run_nil (step : σ → α → Option σ) (s : σ) : run step s [] = some s := rfl

@[simp] theorem run_cons (step : σ → α → Option σ) (s : σ) (a : α) (as : List α) :
    run step s (a :: as) = (step s a).bind fun t => run step t as := rfl

theorem run_append (step : σ → α → Option σ) (s : σ) (as bs : List α) :
    run step s (as ++ bs) = (run step s as).bind fun t => run step t bs := by
  induction as generalizing s with
  | nil => rfl
  | cons a as ih =>
    simp only [List.cons_append, run_cons, Option.bind_assoc]
    cases step s a with
    | none => rfl
    | some t => exact ih t

theorem run_concat {step : σ → α → Option σ} {s t u : σ} {as : List α} {a : α}
    (hrun : run step s as = some t) (hstep : step t a = some u) :
    run step s (as ++ [a]) = some u := by
  rw [run_append, hrun]
  simp [hstep]

theorem run_trans {step : σ → α → Option σ} {s t u : σ} {as bs : List α}
    (hrun : run step s as = some t) (hrun' : run step t bs = some u) :
    run step s (as ++ bs) = some u := by
  rw [run_append, hrun]
  exact hrun'

theorem Along.mono {step : σ → α → Option σ} {p q : σ → α → Prop} (h : ∀ s a, p s a → q s a)
    {as : List α} {s : σ} (hp : Along step p s as) : Along step q s as := by
  induction as generalizing s with
  | nil => trivial
  | cons a as ih =>
    obtain ⟨hpa, hrest⟩ := hp
    exact ⟨h s a hpa, fun t ht => ih (hrest t ht)⟩

theorem along_of_forall {step : σ → α → Option σ} {p : σ → α → Prop} (h : ∀ s a, p s a)
    (as : List α) (s : σ) : Along step p s as := by
  induction as generalizing s with
  | nil => trivial
  | cons a as ih => exact ⟨h s a, fun t _ => ih t⟩

theorem along_of_mem {step : σ → α → Option σ} {p : α → Prop} {as : List α} (h : ∀ a ∈ as, p a)
    (s : σ) : Along step (fun _ => p) s as := by
  induction as generalizing s with
  | nil => trivial
  | cons a as ih =>
    refine ⟨h a List.mem_cons_self, fun t _ => ?_⟩
    exact ih (fun b hb => h b (List.mem_cons_of_mem a hb)) t

/-- Two conditions that agree on every step single out the same runs. -/
theorem along_congr {step : σ → α → Option σ} {p q : σ → α → Prop} (h : ∀ s a, p s a ↔ q s a)
    (s : σ) (as : List α) : Along step p s as ↔ Along step q s as :=
  ⟨Along.mono fun s a => (h s a).1, Along.mono fun s a => (h s a).2⟩

/-- **Invariants.** A property preserved by every step that meets `ok` holds wherever a run of such
steps ends. -/
theorem run_invariant {step : σ → α → Option σ} {ok : σ → α → Prop} {I : σ → Prop}
    (hstep : ∀ s a t, I s → ok s a → step s a = some t → I t) {as : List α} {s t : σ} (hs : I s)
    (hok : Along step ok s as) (hrun : run step s as = some t) : I t := by
  induction as generalizing s with
  | nil =>
    simp only [run_nil, Option.some.injEq] at hrun
    exact hrun ▸ hs
  | cons a as ih =>
    obtain ⟨hoka, hrest⟩ := hok
    rw [run_cons, Option.bind_eq_some_iff] at hrun
    obtain ⟨u, hu, hrun⟩ := hrun
    exact ih (hstep s a u hs hoka hu) (hrest u hu) hrun

/-- A property that every step preserves holds wherever a run ends. -/
theorem run_preserves {step : σ → α → Option σ} {I : σ → Prop}
    (hstep : ∀ s a t, I s → step s a = some t → I t) {as : List α} {s t : σ} (hs : I s)
    (hrun : run step s as = some t) : I t := by
  have hall : Along step (fun _ _ => True) s as := along_of_forall (fun _ _ => trivial) as s
  refine run_invariant ?_ hs hall hrun
  intro s a t hs _ h
  exact hstep s a t hs h

/-- **Histories.** A property of a state together with the labels that led to it. -/
theorem run_history {step : σ → α → Option σ} {s : σ} {I : List α → σ → Prop} (hnil : I [] s)
    (hstep : ∀ as t a u, run step s as = some t → I as t → step t a = some u → I (as ++ [a]) u)
    {as : List α} {t : σ} (hrun : run step s as = some t) : I as t := by
  induction as using List.reverseRecOn generalizing t with
  | nil =>
    cases hrun
    exact hnil
  | append_singleton as a ih =>
    rw [run_append, Option.bind_eq_some_iff] at hrun
    obtain ⟨u, hu, hlast⟩ := hrun
    simp only [run_cons, run_nil, Option.bind_fun_some] at hlast
    exact hstep as u a t hu (ih hu) hlast

/-- A condition that an invariant of the run implies need not be checked step by step. -/
theorem Along.of_invariant {step : σ → α → Option σ} {p q : σ → α → Prop} {I : σ → Prop}
    (hstep : ∀ s a t, I s → p s a → step s a = some t → I t) (h : ∀ s a, I s → p s a → q s a)
    {as : List α} {s : σ} (hs : I s) (hp : Along step p s as) : Along step q s as := by
  induction as generalizing s with
  | nil => trivial
  | cons a as ih =>
    obtain ⟨hpa, hrest⟩ := hp
    exact ⟨h s a hs hpa, fun t ht => ih (hstep s a t hs hpa ht) (hrest t ht)⟩

/-- **Potentials.** A run takes no more steps of a kind than a potential that pays for them
allows. -/
theorem countP_le_of_potential {step : σ → α → Option σ} {ok : α → Prop} {I : σ → Prop}
    {p : α → Bool} {φ : σ → Nat}
    (hstep : ∀ s a t, I s → ok a → step s a = some t → I t ∧ φ t + (p a).toNat ≤ φ s)
    {as : List α} {s t : σ} (hs : I s) (hok : ∀ a ∈ as, ok a) (hrun : run step s as = some t) :
    φ t + as.countP p ≤ φ s := by
  induction as generalizing s with
  | nil =>
    cases hrun
    exact Nat.le_refl _
  | cons a as ih =>
    rw [run_cons, Option.bind_eq_some_iff] at hrun
    obtain ⟨u, hu, hrun⟩ := hrun
    obtain ⟨hoka, hrest⟩ := List.forall_mem_cons.1 hok
    obtain ⟨hI, hpay⟩ := hstep s a u hs hoka hu
    have hle := ih hI hrest hrun
    have hcount : (a :: as).countP p = as.countP p + (p a).toNat := by
      rw [List.countP_cons]
      cases p a <;> rfl
    omega

theorem along_singleton {step : σ → α → Option σ} {ok : σ → α → Prop} {s : σ} {a : α}
    (h : ok s a) : Along step ok s [a] :=
  ⟨h, fun _ _ => trivial⟩

@[simp] theorem run_singleton (step : σ → α → Option σ) (s : σ) (a : α) :
    run step s [a] = step s a := by
  rw [run_cons]
  exact Option.bind_fun_some _

theorem Along.append {step : σ → α → Option σ} {ok : σ → α → Prop} {as bs : List α} {s t : σ}
    (has : Along step ok s as) (hrun : run step s as = some t) (hbs : Along step ok t bs) :
    Along step ok s (as ++ bs) := by
  induction as generalizing s with
  | nil =>
    cases hrun
    exact hbs
  | cons a as ih =>
    rw [run_cons, Option.bind_eq_some_iff] at hrun
    obtain ⟨u, hu, hrun⟩ := hrun
    refine ⟨has.1, fun v hv => ?_⟩
    obtain rfl : u = v := Option.some.inj (hu.symm.trans hv)
    exact ih (has.2 u hu) hrun

theorem Along.forall_mem {step : σ → α → Option σ} {p : α → Prop} {as : List α} {s t : σ}
    (h : Along step (fun _ => p) s as) (hrun : run step s as = some t) : ∀ a ∈ as, p a := by
  induction as generalizing s with
  | nil => exact fun a ha => absurd ha List.not_mem_nil
  | cons a as ih =>
    rw [run_cons, Option.bind_eq_some_iff] at hrun
    obtain ⟨u, hu, hrun⟩ := hrun
    exact List.forall_mem_cons.2 ⟨h.1, ih (h.2 u hu) hrun⟩

/-- **Progress.** Where some allowed steps lower the measure as long as the goal is not reached, a
run of such steps reaches it. -/
theorem exists_run_along {step : σ → α → Option σ} {I goal : σ → Prop} {ok : σ → α → Prop}
    (μ : σ → Nat) (hstep : ∀ s, I s → ¬ goal s → ∃ as t, Along step ok s as ∧
      run step s as = some t ∧ I t ∧ μ t < μ s) {s : σ} (hs : I s) :
    ∃ as t, Along step ok s as ∧ run step s as = some t ∧ I t ∧ goal t := by
  induction h : μ s using Nat.strongRecOn generalizing s with
  | ind n ih =>
    by_cases hg : goal s
    · exact ⟨[], s, trivial, rfl, hs, hg⟩
    · obtain ⟨as, u, has, hu, hI, hlt⟩ := hstep s hs hg
      obtain ⟨bs, t, hbs, hrun, ht, hgoal⟩ := ih (μ u) (h ▸ hlt) hI rfl
      refine ⟨as ++ bs, t, has.append hu hbs, ?_, ht, hgoal⟩
      rw [run_append, hu]
      exact hrun

theorem exists_run_of_measure {step : σ → α → Option σ} {I goal : σ → Prop} {ok : α → Prop}
    (μ : σ → Nat) (hstep : ∀ s, I s → ¬ goal s → ∃ a t, ok a ∧ step s a = some t ∧ I t ∧ μ t < μ s)
    {s : σ} (hs : I s) : ∃ as t, (∀ a ∈ as, ok a) ∧ run step s as = some t ∧ I t ∧ goal t := by
  have hone : ∀ s, I s → ¬ goal s → ∃ as t, Along step (fun _ => ok) s as ∧
      run step s as = some t ∧ I t ∧ μ t < μ s := by
    intro s hs hg
    obtain ⟨a, t, hok, ht, hI, hlt⟩ := hstep s hs hg
    exact ⟨[a], t, along_singleton hok, by rw [run_singleton, ht], hI, hlt⟩
  obtain ⟨as, t, has, hrun, ht, hgoal⟩ := exists_run_along μ hone hs
  exact ⟨as, t, has.forall_mem hrun, hrun, ht, hgoal⟩

end Fclient.Base
