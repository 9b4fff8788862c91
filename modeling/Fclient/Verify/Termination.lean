import Fclient.Verify.Deadlock
import Fclient.Verify.Solo
import Mathlib.Algebra.Group.Nat.Defs
import Mathlib.Algebra.Order.BigOperators.Group.Finset

/-!
# How long the threads can run

`remaining` counts down what a worker can still do: the attempts bound its loop, and a wakeup takes
it out of the wait set. So no worker takes more than 32 steps in any run (`countP_worker_le`), and
once the user and the system stop acting, the application comes to rest after a bounded number of
steps (`settles`).
-/

namespace Fclient.Verify

open Base Native Client

/-! ## One worker -/

def remaining (s : State) (w : Nat) : Nat :=
  let x := s.workers w
  match x.pc with
  | .idle => 32
  | .head => 10 * x.ptc + 1
  | .reset => 10 * (x.ptc - 1) + 10
  | .enter => 10 * (x.ptc - 1) + 9
  | .launch => 10 * (x.ptc - 1) + 8
  | .wait => 10 * (x.ptc - 1) + 7
  | .waiting => 10 * (x.ptc - 1) + 5 + if .worker w ∈ s.monitor.waitSet then 1 else 0
  | .exit => 10 * (x.ptc - 1) + 4
  | .ret => 10 * (x.ptc - 1) + 3
  | .compare _ => 10 * (x.ptc - 1) + 2
  | .done _ | .rejected => 0

/-- A step of this worker. -/
def isStepOf (w : Nat) : Act → Bool
  | .worker w' _ => w' == w
  | .ui _ => false

section Step

variable {sym : DecimalFormatSymbols} {s t : State} {w : Nat}

/-- Who is in the wait set counts one step more. -/
theorem remaining_mono (hx : t.workers w = s.workers w)
    (hmem : .worker w ∈ t.monitor.waitSet → .worker w ∈ s.monitor.waitSet) :
    remaining t w ≤ remaining s w := by
  cases hpc : (s.workers w).pc with
  | waiting =>
    simp only [remaining, hx, hpc]
    refine Nat.add_le_add_left ?_ _
    by_cases ht : .worker w ∈ t.monitor.waitSet
    · rw [if_pos ht, if_pos (hmem ht)]
    · rw [if_neg ht]
      exact Nat.zero_le _
  | _ => simp only [remaining, hx, hpc, Nat.le_refl]

theorem WorkerStep.remaining_ne {a : WorkerAct} (h : WorkerStep s w a t) {w' : Nat}
    (hne : w' ≠ w) : remaining t w' ≤ remaining s w' :=
  remaining_mono (h.workers_ne hne) (h.mem_waitSet hne)

theorem UiStep.remaining {a : UiAct} (h : UiStep sym s a t) (w : Nat) :
    remaining t w ≤ remaining s w := by
  refine remaining_mono (congrFun h.workers_eq w) fun hmem => ?_
  cases h with
  | notify => cases hmem
  | _ => exact hmem

/-- **Every step of a worker counts.** -/
theorem WorkerStep.remaining_lt {a : WorkerAct} (h : WorkerStep s w a t) :
    remaining t w < remaining s w := by
  cases h with
  | wake hpc hmem =>
    unfold State.pc at hpc
    simp only [remaining, hpc, hmem, if_true]
    simp
  | resume hpc hmem =>
    unfold State.pc at hpc
    simp [remaining, State.setPc, State.setWorker, hpc, hmem]
  | wait hpc =>
    unfold State.pc at hpc
    simp [remaining, State.setPc, State.setWorker, hpc]
  | rejected hpc | accepted hpc | exhausted hpc | reset hpc | enter hpc | launch hpc | exit hpc
  | ret hpc | matched hpc | mismatched hpc =>
    unfold State.pc at hpc
    simp [remaining, State.setPc, State.setWorker, State.setPad, hpc]
  | prompt hpc hptc =>
    unfold State.pc at hpc
    simp only [remaining, State.setPc, State.setWorker, Function.update_self, hpc]
    omega

theorem remaining_step {a : Act} (h : step sym s a = some t) (w : Nat) :
    remaining t w + (isStepOf w a).toNat ≤ remaining s w := by
  cases a with
  | worker w' a =>
    have hw := workerStep_cases h
    by_cases he : w' = w
    · subst he
      have hof : isStepOf w' (.worker w' a) = true := beq_self_eq_true w'
      rw [hof]
      exact hw.remaining_lt
    · have hof : isStepOf w (.worker w' a) = false := beq_eq_false_iff_ne.2 he
      rw [hof]
      exact hw.remaining_ne (Ne.symm he)
  | ui a => exact (uiStep_cases h).remaining w

end Step

/-- The steps a worker has taken and the ones it can still take. -/
theorem remaining_run {sym : DecimalFormatSymbols} {acts : List Act} {s t : State}
    (hrun : run (step sym) s acts = some t) (w : Nat) :
    remaining t w + acts.countP (isStepOf w) ≤ remaining s w := by
  refine countP_le_of_potential (p := isStepOf w) (I := fun _ => True)
    (φ := fun s => remaining s w) ?_ trivial (fun _ _ => trivial) hrun
  intro s a t _ _ h
  exact ⟨trivial, remaining_step h w⟩

/-- **A bounded transaction.** In no run does a worker take more than 32 steps, spurious wakeups
included. -/
theorem countP_worker_le {sym : DecimalFormatSymbols} {acts : List Act} {s : State}
    (hrun : run (step sym) State.init acts = some s) (w : Nat) :
    acts.countP (isStepOf w) ≤ 32 :=
  Nat.le_trans (Nat.le_add_left _ _) (remaining_run hrun w)

theorem countP_worker_le_rouble : ∃ s,
    run (step symbolsEn) State.init (roubleRun [4, 3, 4, 3]) = some s ∧
      (roubleRun [4, 3, 4, 3]).countP (isStepOf 0) ≤ 32 := by
  have hsome : (run (step symbolsEn) State.init (roubleRun [4, 3, 4, 3])).isSome = true := by
    decide +kernel
  obtain ⟨s, hrun⟩ := Option.isSome_iff_exists.1 hsome
  exact ⟨s, hrun, countP_worker_le hrun 0⟩

/-! ## All threads -/

/-- What the UI thread has left of `onActivityResult`. -/
def uiRemaining : UiPc → Nat
  | .write _ _ => 4
  | .enter _ _ => 3
  | .notify _ _ => 2
  | .exit => 1
  | .idle => 0

/-- The workers that a run has started. -/
def starts (acts : List Act) : List Nat :=
  acts.filterMap fun a => match a with
    | .worker w (.start _ _) => some w
    | _ => none

/-- Only the workers in `ws` have been started. -/
def Within (ws : Finset Nat) (s : State) : Prop := ∀ w, w ∉ ws → s.pc w = .idle

section Settles

variable {sym : DecimalFormatSymbols} {acts : List Act} {s t : State} {ws : Finset Nat} {w : Nat}

theorem WorkerStep.start_of_idle {a : WorkerAct} (h : WorkerStep s w a t)
    (hidle : s.pc w = .idle) : ∃ trd stack, a = .start trd stack := by
  cases h with
  | rejected | accepted => exact ⟨_, _, rfl⟩
  | prompt h | exhausted h | reset h | enter h | launch h | wait h | wake h | resume h | exit h
  | ret h | matched h | mismatched h => cases hidle.symm.trans h

theorem Internal.not_idle {a : WorkerAct} (ha : Internal (.worker w a)) (h : WorkerStep s w a t) :
    s.pc w ≠ .idle := by
  intro hidle
  obtain ⟨trd, stack, rfl⟩ := h.start_of_idle hidle
  exact ha

theorem within_run (hrun : run (step sym) State.init acts = some s) :
    Within (starts acts).toFinset s := by
  refine run_history (I := fun acts s => Within (starts acts).toFinset s) (fun _ _ => rfl)
    (fun acts s a t _ hs hstep w hw => ?_) hrun
  have hstarts : starts (acts ++ [a]) = starts acts ++ starts [a] := List.filterMap_append
  rw [hstarts, List.toFinset_append, Finset.notMem_union] at hw
  have hidle := hs w hw.1
  cases a with
  | worker w' a =>
    have h := workerStep_cases hstep
    by_cases he : w = w'
    · subst he
      obtain ⟨trd, stack, rfl⟩ := h.start_of_idle hidle
      exact absurd (List.mem_toFinset.2 List.mem_cons_self) hw.2
    · exact (h.pc_ne he).trans hidle
  | ui a =>
    rw [State.pc, (uiStep_cases hstep).workers_eq]
    exact hidle

theorem Within.step {a : Act} (hs : Within ws s) (ha : Internal a)
    (h : Client.step sym s a = some t) : Within ws t := by
  intro w hw
  cases a with
  | worker w' a =>
    have hstep := workerStep_cases h
    have hne : w ≠ w' := by
      rintro rfl
      exact ha.not_idle hstep (hs w hw)
    rw [hstep.pc_ne hne]
    exact hs w hw
  | ui a =>
    rw [State.pc, (uiStep_cases h).workers_eq]
    exact hs w hw

/-- What all threads together can still do on their own. -/
def budget (ws : Finset Nat) (s : State) : Nat := (∑ w ∈ ws, remaining s w) + uiRemaining s.ui

theorem Internal.uiRemaining {a : UiAct} (ha : Internal (.ui a)) (h : UiStep sym s a t) :
    Verify.uiRemaining t.ui < Verify.uiRemaining s.ui := by
  cases h with
  | create | click | back | deliverOk | deliverCanceled => exact ha.elim
  | write hui | enter hui | notify hui | exit hui =>
    rw [hui]
    exact Nat.lt_succ_self _

/-- **Every step of the threads** uses up the budget. -/
theorem budget_step {a : Act} (hs : Within ws s) (ha : Internal a) (h : step sym s a = some t) :
    budget ws t < budget ws s := by
  have hle : ∀ w ∈ ws, remaining t w ≤ remaining s w :=
    fun w _ => Nat.le_trans (Nat.le_add_right _ _) (remaining_step h w)
  cases a with
  | ui a =>
    exact Nat.add_lt_add_of_le_of_lt (Finset.sum_le_sum hle) (ha.uiRemaining (uiStep_cases h))
  | worker w a =>
    have hstep := workerStep_cases h
    have hlt := hstep.remaining_lt
    have hw : w ∈ ws := by
      by_contra hw
      exact ha.not_idle hstep (hs w hw)
    rw [budget, hstep.ui_eq]
    exact Nat.add_lt_add_right (Finset.sum_lt_sum hle ⟨w, hw, hlt⟩) _

theorem budget_le (hrun : run (step sym) State.init acts = some s) :
    budget (starts acts).toFinset s ≤ 32 * (starts acts).length + 4 := by
  have hremaining : ∀ w, remaining s w ≤ 32 := fun w =>
    Nat.le_trans (Nat.le_add_right _ _) (remaining_run hrun w)
  have hsum : ∑ w ∈ (starts acts).toFinset, remaining s w ≤ (starts acts).toFinset.card • 32 :=
    Finset.sum_le_card_nsmul _ _ 32 fun w _ => hremaining w
  have hcard := List.toFinset_card_le (starts acts)
  have hui : uiRemaining s.ui ≤ 4 := by
    cases s.ui <;> simp [uiRemaining]
  rw [Nat.nsmul_eq_mul] at hsum
  unfold budget
  omega

end Settles

/-- **Coming to rest.** From every reachable state on, the threads take a bounded number of steps on
their own, however they are scheduled, and they can go on until all of them are at rest. -/
theorem settles {sym : DecimalFormatSymbols} {acts : List Act} {s : State}
    (hrun : run (step sym) State.init acts = some s) :
    (∀ prog t, (∀ a ∈ prog, Internal a) → run (step sym) s prog = some t →
      prog.length ≤ 32 * (starts acts).length + 4) ∧
    ∃ prog t, (∀ a ∈ prog, Internal a) ∧ run (step sym) s prog = some t ∧ Quiet t := by
  have hwithin := within_run hrun
  constructor
  · intro prog t hprog hrun'
    have hle := countP_le_of_potential (p := fun _ => true)
      (fun s a t hs ha h => ⟨Within.step hs ha h, budget_step hs ha h⟩) hwithin hprog hrun'
    rw [List.countP_true] at hle
    have hbound := budget_le hrun
    omega
  · have hnext : ∀ s, Within (starts acts).toFinset s ∧ Wf s ∧ Live s → ¬ Quiet s →
        ∃ a t, Internal a ∧ step sym s a = some t ∧
          (Within (starts acts).toFinset t ∧ Wf t ∧ Live t) ∧
            budget (starts acts).toFinset t < budget (starts acts).toFinset s := by
      rintro s ⟨hs, hwf, hlive⟩ hbusy
      obtain ⟨a, ha, hsome⟩ := @enabled_of_not_quiet sym s hwf hlive hbusy
      obtain ⟨t, h⟩ := Option.isSome_iff_exists.1 hsome
      exact ⟨a, t, ha, h, ⟨hs.step ha h, hwf.step h, hlive.step h⟩, budget_step hs ha h⟩
    obtain ⟨prog, t, hprog, hrun', -, hquiet⟩ :=
      exists_run_of_measure _ hnext ⟨hwithin, wf_run hrun, live_run hrun⟩
    exact ⟨prog, t, hprog, hrun', hquiet⟩

theorem settles_prompt : ∃ s, run (step symbolsEn) State.init (promptRun 0 rouble) = some s ∧
    (∀ prog t, (∀ a ∈ prog, Internal a) → run (step symbolsEn) s prog = some t →
      prog.length ≤ 32 * (starts (promptRun 0 rouble)).length + 4) ∧
    ∃ prog t, (∀ a ∈ prog, Internal a) ∧ run (step symbolsEn) s prog = some t ∧ Quiet t := by
  have hsome : (run (step symbolsEn) State.init (promptRun 0 rouble)).isSome = true := by
    decide +kernel
  obtain ⟨s, hrun⟩ := Option.isSome_iff_exists.1 hsome
  exact ⟨s, hrun, settles hrun⟩

end Fclient.Verify
