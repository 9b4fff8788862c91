import Mathlib.Data.List.Basic

/-!
# Monitors

A monitor in the sense of the Java language: one owner at a time and a wait set. `wait` releases the
monitor and joins the wait set in one step; a thread leaves the wait set through `notifyAll` or a
spurious `wake`, and then competes for the monitor again (`resume`). Every operation is partial:
`none` where the thread has to block or the operation is illegal.
-/

namespace Fclient.Base

structure Monitor (τ : Type*) where
  owner : Option τ
  waitSet : List τ

namespace Monitor

variable {τ : Type*}

def free : Monitor τ := ⟨none, []⟩

/-! ## Mutual exclusion -/

/-- `inside` lists threads that are in the synchronized region: each of them owns the monitor. -/
def Guards (m : Monitor τ) (inside : τ → Prop) : Prop :=
  ∀ t, inside t → m.owner = some t

theorem Guards.unique {m : Monitor τ} {inside : τ → Prop} (h : m.Guards inside) {t u : τ}
    (ht : inside t) (hu : inside u) : t = u :=
  Option.some.inj ((h t ht).symm.trans (h u hu))

theorem Guards.empty {m : Monitor τ} {inside : τ → Prop} (h : m.Guards inside)
    (hfree : m.owner = none) (t : τ) : ¬ inside t :=
  fun ht => by simp [h t ht] at hfree

theorem Guards.mono {m m' : Monitor τ} {inside inside' : τ → Prop} (h : m.Guards inside)
    (howner : m'.owner = m.owner) (hsub : ∀ t, inside' t → inside t) : m'.Guards inside' :=
  fun t ht => howner.trans (h t (hsub t ht))

/-- A thread that finds the monitor free may go inside. -/
theorem Guards.acquire {m m' : Monitor τ} {inside inside' : τ → Prop} (h : m.Guards inside) {t : τ}
    (hfree : m.owner = none) (howner : m'.owner = some t)
    (hsub : ∀ u, inside' u → u = t ∨ inside u) : m'.Guards inside' := by
  intro u hu
  rcases hsub u hu with rfl | hin
  · exact howner
  · exact absurd hin (h.empty hfree u)

theorem Guards.release {m m' : Monitor τ} {inside inside' : τ → Prop} (h : m.Guards inside) {t : τ}
    (howner : m.owner = some t) (hsub : ∀ u, inside' u → u ≠ t ∧ inside u) : m'.Guards inside' := by
  intro u hu
  obtain ⟨hne, hin⟩ := hsub u hu
  exact absurd (Option.some.inj ((h u hin).symm.trans howner)) hne

/-! ## Operations -/

def enter (m : Monitor τ) (t : τ) : Option (Monitor τ) :=
  if m.owner = none then some ⟨some t, m.waitSet⟩ else none

theorem enter_eq_some {m m' : Monitor τ} {t : τ} :
    m.enter t = some m' ↔ m.owner = none ∧ m' = ⟨some t, m.waitSet⟩ := by
  unfold enter
  split <;> simp_all [eq_comm]

variable [DecidableEq τ]

def exit (m : Monitor τ) (t : τ) : Option (Monitor τ) :=
  if m.owner = some t then some ⟨none, m.waitSet⟩ else none

def wait (m : Monitor τ) (t : τ) : Option (Monitor τ) :=
  if m.owner = some t then some ⟨none, t :: m.waitSet⟩ else none

def notifyAll (m : Monitor τ) (t : τ) : Option (Monitor τ) :=
  if m.owner = some t then some ⟨m.owner, []⟩ else none

def wake (m : Monitor τ) (t : τ) : Option (Monitor τ) :=
  if t ∈ m.waitSet then some ⟨m.owner, m.waitSet.filter (· ≠ t)⟩ else none

/-- The return from `wait`: out of the wait set and owner again. -/
def resume (m : Monitor τ) (t : τ) : Option (Monitor τ) :=
  if t ∈ m.waitSet then none else m.enter t

theorem exit_eq_some {m m' : Monitor τ} {t : τ} :
    m.exit t = some m' ↔ m.owner = some t ∧ m' = ⟨none, m.waitSet⟩ := by
  unfold exit
  split <;> simp_all [eq_comm]

theorem wait_eq_some {m m' : Monitor τ} {t : τ} :
    m.wait t = some m' ↔ m.owner = some t ∧ m' = ⟨none, t :: m.waitSet⟩ := by
  unfold wait
  split <;> simp_all [eq_comm]

theorem notifyAll_eq_some {m m' : Monitor τ} {t : τ} :
    m.notifyAll t = some m' ↔ m.owner = some t ∧ m' = ⟨some t, []⟩ := by
  unfold notifyAll
  split <;> simp_all [eq_comm]

theorem wake_eq_some {m m' : Monitor τ} {t : τ} :
    m.wake t = some m' ↔ t ∈ m.waitSet ∧ m' = ⟨m.owner, m.waitSet.filter (· ≠ t)⟩ := by
  unfold wake
  split <;> simp_all [eq_comm]

theorem resume_eq_some {m m' : Monitor τ} {t : τ} :
    m.resume t = some m' ↔ t ∉ m.waitSet ∧ m.owner = none ∧ m' = ⟨some t, m.waitSet⟩ := by
  unfold resume
  split
  · simp_all
  · simp_all [enter_eq_some]

end Monitor

end Fclient.Base
