import Fclient.Verify.Termination
import Fclient.Verify.Toast

/-!
# Every report is shown

The statements of the application that wait for nobody pay for themselves: a transaction or a
request that reports uses up more than the toast costs that is left to show. So the application
comes to rest after a bounded number of steps, and then nothing is waiting in the queue of the UI
thread (`shown_of_stuck`).
-/

namespace Fclient.Verify

open Base Native Client

/-- The statements that wait for nobody: not the user, the system, or the back end. -/
def MainInternal : MainAct → Prop
  | .session a => Internal a
  | .http _ .start => True
  | .http _ .report => True
  | .toast => True
  | _ => False

/-! ## What is left to do -/

/-- The steps of a request, and the toast of its report. -/
def requestCost : HttpPc → Nat
  | .clicked => 1
  | .fetched _ => 2
  | _ => 0

/-- What the threads can still do on their own; a step of a worker may bring a toast with it. -/
def mainBudget (ws : Finset Nat) (s : MainState) : Nat :=
  2 * budget ws s.session + (s.requests.map requestCost).sum + s.queue.length

section Budget

variable {sym : DecimalFormatSymbols} {s t : MainState} {ws : Finset Nat}

theorem sum_map_set {α : Type*} (f : α → Nat) (b : α) {l : List α} {i : Nat} {a : α}
    (h : l[i]? = some a) : ((l.set i b).map f).sum + f a = (l.map f).sum + f b := by
  induction l generalizing i with
  | nil => cases h
  | cons c l ih =>
    cases i with
    | zero =>
      cases h
      simp only [List.set_cons_zero, List.map_cons, List.sum_cons]
      omega
    | succ i =>
      have hrest := ih h
      simp only [List.set_cons_succ, List.map_cons, List.sum_cons]
      omega

theorem length_reported_le (t : State) (a : Act) : (reported t a).length ≤ 1 := by
  cases a with
  | ui a => exact Nat.zero_le 1
  | worker w a => cases h : t.pc w <;> simp [reported, h]

theorem sum_requestCost_le (l : List HttpPc) : (l.map requestCost).sum ≤ 2 * l.length := by
  induction l with
  | nil => exact Nat.le_refl 0
  | cons pc l ih =>
    have hpc : requestCost pc ≤ 2 := by cases pc <;> simp [requestCost]
    rw [List.map_cons, List.sum_cons, List.length_cons]
    omega

/-- **Every step of the application** uses up the budget. -/
theorem mainBudget_step {a : MainAct} (hs : Within ws s.session) (ha : MainInternal a)
    (h : mainStep sym s a = some t) : mainBudget ws t < mainBudget ws s := by
  cases a with
  | session a =>
    obtain ⟨u, hu, rfl⟩ := Option.map_eq_some_iff.1 h
    have hlt := budget_step hs ha hu
    have hle := length_reported_le u a
    simp only [mainBudget, List.length_append]
    omega
  | onButtonClick => exact ha.elim
  | http i a =>
    cases mainStep_cases h with
    | respond | fail => exact ha.elim
    | start hi =>
      have hsum := sum_map_set requestCost .fetching hi
      simp only [mainBudget, requestCost] at hsum ⊢
      omega
    | @report _ html hi =>
      have hsum := sum_map_set requestCost (.reported (getPageTitle html)) hi
      simp only [mainBudget, requestCost, List.length_append, List.length_singleton] at hsum ⊢
      omega
  | toast =>
    cases mainStep_cases h with
    | toast hui hqueue =>
      simp only [mainBudget, hqueue, List.length_cons]
      omega

theorem within_mainStep {a : MainAct} (hs : Within ws s.session) (ha : MainInternal a)
    (h : mainStep sym s a = some t) : Within ws t.session := by
  cases a with
  | session a =>
    obtain ⟨u, hu, rfl⟩ := Option.map_eq_some_iff.1 h
    exact hs.step ha hu
  | onButtonClick | http | toast =>
    have hsame : t.session = s.session := by cases mainStep_cases h <;> rfl
    rw [hsame]
    exact hs

end Budget

/-! ## At rest -/

theorem quiet_of_stuck {sym : DecimalFormatSymbols} {acts : List MainAct} {s : MainState}
    (hrun : run (mainStep sym) MainState.init acts = some s)
    (hstuck : ∀ a, MainInternal a → mainStep sym s a = none) :
    Quiet s.session ∧ s.queue = [] := by
  have hquiet : Quiet s.session := by
    by_contra hbusy
    have hsession := session_run hrun
    obtain ⟨a, ha, hsome⟩ := @enabled_of_not_quiet sym _ (wf_run hsession) (live_run hsession) hbusy
    obtain ⟨u, hu⟩ := Option.isSome_iff_exists.1 hsome
    have hnone := hstuck (.session a) ha
    rw [mainStep, hu] at hnone
    cases hnone
  refine ⟨hquiet, ?_⟩
  have hnone := hstuck .toast trivial
  unfold mainStep at hnone
  rw [hquiet.1] at hnone
  cases hqueue : s.queue with
  | nil => rfl
  | cons r queue =>
    rw [hqueue] at hnone
    cases hnone

/-- **Every report is shown.** From every reachable state on, the application takes a bounded number
of steps on its own, however they are scheduled, and when it cannot go on, every result and every
title that was reported has been shown, as often as it was reported. -/
theorem shown_of_stuck {sym : DecimalFormatSymbols} {acts : List MainAct} {s : MainState}
    (hrun : run (mainStep sym) MainState.init acts = some s) {prog : List MainAct} {t : MainState}
    (hprog : ∀ a ∈ prog, MainInternal a) (hrest : run (mainStep sym) s prog = some t) :
    prog.length ≤ 64 * (starts (sessionActs acts)).length + 2 * s.requests.length +
      s.queue.length + 8 ∧
    ((∀ a, MainInternal a → mainStep sym t a = none) → Quiet t.session ∧
      ∀ r, ∃ is : List Source, is.Nodup ∧ (∀ i, i ∈ is ↔ Reported t i r) ∧
        t.toasts.count r.text = is.length) := by
  have hsession := session_run hrun
  constructor
  · have hle := countP_le_of_potential (p := fun _ => true)
      (fun s a t hs ha h => ⟨within_mainStep hs ha h, mainBudget_step hs ha h⟩)
      (within_run hsession) hprog hrest
    have hbudget := budget_le hsession
    have hcost := sum_requestCost_le s.requests
    rw [List.countP_true] at hle
    unfold mainBudget at hle
    omega
  · intro hstuck
    have hall := run_trans hrun hrest
    obtain ⟨hquiet, hqueue⟩ := quiet_of_stuck hall hstuck
    obtain ⟨log, h⟩ := told_run hall
    refine ⟨hquiet, fun r => ?_⟩
    have hsources := h.exists_sources r
    rw [hqueue] at hsources
    exact hsources

/-- The result of the transaction for one rouble, before and after its toast. -/
theorem shown_of_stuck_rouble : ∃ s t,
    run (mainStep symbolsEn) MainState.init ((comparedRun [4, 3, 4, 3]).map .session) = some s ∧
    run (mainStep symbolsEn) s [.toast] = some t ∧
    [MainAct.toast].length ≤
      64 * (starts (sessionActs ((comparedRun [4, 3, 4, 3]).map .session))).length +
        2 * s.requests.length + s.queue.length + 8 ∧
    ((∀ a, MainInternal a → mainStep symbolsEn t a = none) → Quiet t.session ∧
      ∀ r, ∃ is : List Source, is.Nodup ∧ (∀ i, i ∈ is ↔ Reported t i r) ∧
        t.toasts.count r.text = is.length) := by
  have hend : ((run (mainStep symbolsEn) MainState.init
      ((comparedRun [4, 3, 4, 3]).map .session)).bind fun s =>
        run (mainStep symbolsEn) s [.toast]).isSome := by decide +kernel
  obtain ⟨t, hend⟩ := Option.isSome_iff_exists.1 hend
  obtain ⟨s, hrun, hrest⟩ := Option.bind_eq_some_iff.1 hend
  have hprog : ∀ a ∈ [MainAct.toast], MainInternal a := by
    intro a ha
    rw [List.mem_singleton.1 ha]
    trivial
  exact ⟨s, t, hrun, hrest, shown_of_stuck hrun hprog hrest⟩

end Fclient.Verify
