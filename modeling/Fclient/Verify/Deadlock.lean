import Fclient.Verify.Wakeup

/-!
# No deadlock

The owner of the monitor is inside a synchronized block, from where it can always go on, and the
field `pin` is set whenever a call of `enterPIN` reads it (`Live`). So in every reachable state some
thread can take its next step, unless all of them are at rest: not started, finished, or in the wait
set (`enabled_iff_not_quiet`).
-/

namespace Fclient.Verify

open Base Native Client

/-! ## Threads at rest -/

/-- Not started, finished, or waiting for a notification. -/
def AtRest (s : State) (w : Nat) : Prop :=
  s.pc w = .idle ∨ s.pc w = .rejected ∨ (∃ r, s.pc w = .done r) ∨ .worker w ∈ s.monitor.waitSet

def Quiet (s : State) : Prop := s.ui = .idle ∧ ∀ w, AtRest s w

/-- The next statement of a thread that runs: nothing that the user, the system or a spurious wakeup
does. -/
def Internal : Act → Prop
  | .worker _ (.start _ _) => False
  | .worker _ .wake => False
  | .worker _ _ => True
  | .ui .write => True
  | .ui .enter => True
  | .ui .notify => True
  | .ui .exit => True
  | .ui _ => False

/-! ## The owner is inside -/

structure Live (s : State) : Prop where
  owner : ∀ u, s.monitor.owner = some u → inside s u
  pin : ∀ w, Pc.inCall (s.pc w) = true → s.pin ≠ none

section Step

variable {sym : DecimalFormatSymbols} {s t : State} {w : Nat}

theorem WorkerStep.owner {a : WorkerAct} (h : WorkerStep s w a t)
    (hs : ∀ u, s.monitor.owner = some u → inside s u) (u : Thread)
    (hu : t.monitor.owner = some u) : inside t u := by
  -- another owner stays where it is, and the worker itself only goes to `wait`
  have hkeep : ∀ {pc}, s.pc w = pc → t.monitor.owner = s.monitor.owner →
      (Pc.inside pc = true → inside t (.worker w)) → inside t u := by
    intro pc hpc howner hself
    have hin := hs u (howner ▸ hu)
    by_cases he : u = .worker w
    · subst he
      exact hself (hpc ▸ hin)
    · exact (h.inside_ne he).2 hin
  cases h with
  | enter | resume =>
    cases hu
    exact (congrArg Pc.inside (pc_setPc _)).trans rfl
  | wait | exit => cases hu
  | launch hpc => exact hkeep hpc rfl fun _ => (congrArg Pc.inside (pc_setPc _)).trans rfl
  | wake hpc => exact hkeep hpc rfl fun hin => by cases hin
  | rejected hpc | accepted hpc | prompt hpc | exhausted hpc | reset hpc | ret hpc | matched hpc
  | mismatched hpc => exact hkeep hpc rfl fun hin => by cases hin

theorem UiStep.owner {a : UiAct} (h : UiStep sym s a t)
    (hs : ∀ u, s.monitor.owner = some u → inside s u) (u : Thread)
    (hu : t.monitor.owner = some u) : inside t u := by
  have hkeep : ∀ {ui}, s.ui = ui → t.monitor.owner = s.monitor.owner →
      (UiPc.inside ui = true → inside t .ui) → inside t u := by
    intro ui hui howner hself
    have hin := hs u (howner ▸ hu)
    by_cases he : u = .ui
    · subst he
      exact hself (hui ▸ hin)
    · exact (h.inside_ne he).2 hin
  cases h with
  | enter | notify =>
    cases hu
    rfl
  | exit => cases hu
  | create hui | click hui | back hui | deliverOk hui | deliverCanceled hui | write hui =>
    exact hkeep hui rfl fun hin => by cases hin

theorem WorkerStep.pin_ne_none {a : WorkerAct} (h : WorkerStep s w a t)
    (hs : ∀ w, Pc.inCall (s.pc w) = true → s.pin ≠ none) (w' : Nat)
    (hin : Pc.inCall (t.pc w') = true) : t.pin ≠ none := by
  have hold : t.pin = some [] ∨ t.pin = s.pin ∧ s.pin ≠ none := by
    by_cases hw : w' = w
    · subst hw
      rcases h.inCall_self hin with hpin | ⟨hin, hpin, -⟩
      · exact .inl hpin
      · exact .inr ⟨hpin, hs w' hin⟩
    · have hne := hs w' (h.pc_ne hw ▸ hin)
      exact h.pin_eq.symm.imp And.right fun hpin => ⟨hpin, hne⟩
  rcases hold with hpin | ⟨hpin, hne⟩
  · rw [hpin]
    exact Option.some_ne_none _
  · rwa [hpin]

theorem Live.worker_step {a : WorkerAct} (hs : Live s) (h : WorkerStep s w a t) : Live t where
  owner := h.owner hs.owner
  pin := h.pin_ne_none hs.pin

theorem Live.ui_step {a : UiAct} (hs : Live s) (h : UiStep sym s a t) : Live t where
  owner := h.owner hs.owner
  pin w hin := by
    rw [State.pc, h.workers_eq] at hin
    have hpin := hs.pin w hin
    cases h with
    | write => exact Option.some_ne_none _
    | _ => exact hpin

theorem Live.step {a : Act} (hs : Live s) (h : step sym s a = some t) : Live t := by
  cases a with
  | worker w a => exact hs.worker_step (workerStep_cases h)
  | ui a => exact hs.ui_step (uiStep_cases h)

theorem live_init : Live State.init where
  owner _ h := by cases h
  pin _ h := by cases h

theorem live_run {acts : List Act} (hrun : run (step sym) State.init acts = some s) : Live s := by
  refine run_preserves ?_ live_init hrun
  intro s a t hs h
  exact hs.step h

end Step

/-! ## Somebody can go on -/

section Enabled

variable {sym : DecimalFormatSymbols} {s : State} {w : Nat}

/-- Whoever is inside can take its next step. -/
theorem enabled_of_inside (hs : Wf s) {u : Thread} (hu : inside s u) :
    ∃ a, Internal a ∧ (step sym s a).isSome = true := by
  have howner := hs.guards u hu
  cases u with
  | worker w =>
    cases hpc : (s.workers w).pc with
    | launch =>
      refine ⟨.worker w .launch, trivial, ?_⟩
      simp only [step, workerStep, hpc, Option.isSome_some]
    | wait =>
      refine ⟨.worker w .wait, trivial, ?_⟩
      simp only [step, workerStep, hpc, Option.isSome_map, Monitor.wait, howner, if_true,
        Option.isSome_some]
    | exit =>
      refine ⟨.worker w .exit, trivial, ?_⟩
      simp only [step, workerStep, hpc, Option.isSome_map, Monitor.exit, howner, if_true,
        Option.isSome_some]
    | _ =>
      rw [inside, State.pc, hpc] at hu
      cases hu
  | ui =>
    cases hui : s.ui with
    | notify c v =>
      obtain ⟨intent, hpad⟩ := hs.handling c v (by rw [hui]; rfl)
      refine ⟨.ui .notify, trivial, ?_⟩
      simp only [step, uiStep, hui, Monitor.notifyAll, howner, if_true, Option.bind_some,
        Option.isSome_map, hpad, Option.isSome_some]
    | exit =>
      refine ⟨.ui .exit, trivial, ?_⟩
      simp only [step, uiStep, hui, Option.isSome_map, Monitor.exit, howner, if_true,
        Option.isSome_some]
    | _ =>
      rw [inside, hui] at hu
      cases hu

/-- While the monitor is free, a worker that is not at rest can take its next step. -/
theorem enabled_worker (hs : Wf s) (hlive : Live s) (hfree : s.monitor.owner = none)
    (hw : ¬ AtRest s w) : ∃ a, Internal a ∧ (step sym s a).isSome = true := by
  have hout := hs.guards.empty hfree (.worker w)
  have hpin := hlive.pin w
  unfold State.pc at hpin
  simp only [AtRest, State.pc, not_or, not_exists] at hw
  obtain ⟨hidle, hrejected, hdone, hmem⟩ := hw
  cases hpc : (s.workers w).pc with
  | idle => exact absurd hpc hidle
  | rejected => exact absurd hpc hrejected
  | done r => exact absurd hpc (hdone r)
  | launch | wait | exit =>
    rw [inside, State.pc, hpc] at hout
    exact absurd rfl hout
  | head =>
    refine ⟨.worker w .loop, trivial, ?_⟩
    simp only [step, workerStep, hpc, Option.isSome_some]
  | reset =>
    refine ⟨.worker w .reset, trivial, ?_⟩
    simp only [step, workerStep, hpc, Option.isSome_some]
  | enter =>
    refine ⟨.worker w .enter, trivial, ?_⟩
    simp only [step, workerStep, hpc, Option.isSome_map, Monitor.enter, hfree, if_true,
      Option.isSome_some]
  | waiting =>
    refine ⟨.worker w .resume, trivial, ?_⟩
    simp only [step, workerStep, hpc, Option.isSome_map, Monitor.resume, hmem, if_false,
      Monitor.enter, hfree, if_true, Option.isSome_some]
  | ret =>
    obtain ⟨v, hv⟩ := Option.ne_none_iff_exists'.1 (hpin (by rw [hpc]; rfl))
    refine ⟨.worker w .ret, trivial, ?_⟩
    simp only [step, workerStep, hpc, Option.isSome_map, hv, Option.isSome_some]
  | compare v =>
    refine ⟨.worker w (.compare []), trivial, ?_⟩
    simp only [step, workerStep, hpc, Option.isSome_some]

theorem enabled_ui (hs : Wf s) (hfree : s.monitor.owner = none) (hui : s.ui ≠ .idle) :
    ∃ a, Internal a ∧ (step sym s a).isSome = true := by
  have hout := hs.guards.empty hfree .ui
  cases he : s.ui with
  | idle => exact absurd he hui
  | notify | exit =>
    rw [inside, he] at hout
    exact absurd rfl hout
  | write c v =>
    refine ⟨.ui .write, trivial, ?_⟩
    simp only [step, uiStep, he, Option.isSome_some]
  | enter c v =>
    refine ⟨.ui .enter, trivial, ?_⟩
    simp only [step, uiStep, he, Option.isSome_map, Monitor.enter, hfree, if_true,
      Option.isSome_some]

theorem enabled_of_not_quiet (hs : Wf s) (hlive : Live s) (hbusy : ¬ Quiet s) :
    ∃ a, Internal a ∧ (step sym s a).isSome = true := by
  cases howner : s.monitor.owner with
  | some u => exact enabled_of_inside hs (hlive.owner u howner)
  | none =>
    by_cases hui : s.ui = .idle
    · have hw : ∃ w, ¬ AtRest s w := by
        by_contra hrest
        exact hbusy ⟨hui, fun w => not_not.1 fun hw => hrest ⟨w, hw⟩⟩
      obtain ⟨w, hw⟩ := hw
      exact enabled_worker hs hlive howner hw
    · exact enabled_ui hs howner hui

/-- A thread at rest has no step of its own. -/
theorem not_enabled_of_quiet (hs : Wf s) (hquiet : Quiet s) {a : Act} (ha : Internal a) :
    step sym s a = none := by
  rw [← Option.not_isSome_iff_eq_none, Option.isSome_iff_exists]
  rintro ⟨t, h⟩
  cases a with
  | ui a =>
    have hui := hquiet.1
    cases uiStep_cases h with
    | create | click | back | deliverOk | deliverCanceled => exact ha
    | write hui' | enter hui' | notify hui' | exit hui' => cases hui'.symm.trans hui
  | worker w a =>
    have hw := hquiet.2 w
    have hno : ∀ {pc}, s.pc w = pc → pc ≠ .idle → pc ≠ .rejected → (∀ r, pc ≠ .done r) →
        .worker w ∈ s.monitor.waitSet ∧ pc = .waiting := by
      rintro pc rfl h₁ h₂ h₃
      rcases hw with h | h | ⟨r, h⟩ | h
      · exact absurd h h₁
      · exact absurd h h₂
      · exact absurd h (h₃ r)
      · exact ⟨h, hs.waitSet w h⟩
    cases workerStep_cases h with
    | rejected | accepted | wake => exact ha
    | resume hpc hmem =>
      exact hmem (hno hpc Pc.noConfusion Pc.noConfusion fun _ => Pc.noConfusion).1
    | prompt hpc | exhausted hpc | reset hpc | enter hpc | launch hpc | wait hpc | exit hpc
    | ret hpc | matched hpc | mismatched hpc =>
      cases (hno hpc Pc.noConfusion Pc.noConfusion fun _ => Pc.noConfusion).2

end Enabled

/-- **No deadlock.** In every reachable state the threads can go on exactly when not all of them are
at rest, whatever the number of transactions. -/
theorem enabled_iff_not_quiet {sym : DecimalFormatSymbols} {acts : List Act} {s : State}
    (hrun : run (step sym) State.init acts = some s) :
    (∃ a, Internal a ∧ (step sym s a).isSome = true) ↔ ¬ Quiet s := by
  constructor
  · rintro ⟨a, ha, hsome⟩ hquiet
    rw [not_enabled_of_quiet (wf_run hrun) hquiet ha] at hsome
    cases hsome
  · exact enabled_of_not_quiet (wf_run hrun) (live_run hrun)

/-- A worker that has accepted its record can go on. -/
theorem enabled_iff_not_quiet_start : ∃ s,
    run (step symbolsEn) State.init [.worker 0 (.start rouble fun _ => 0)] = some s ∧
      ∃ a, Internal a ∧ (step symbolsEn s a).isSome = true := by
  have hhead : (run (step symbolsEn) State.init [.worker 0 (.start rouble fun _ => 0)]).map
      (fun s => (s.pc 0, s.monitor.waitSet)) = some (.head, []) := by decide +kernel
  obtain ⟨s, hrun, hs⟩ := Option.map_eq_some_iff.1 hhead
  obtain ⟨hpc, hwait⟩ := Prod.mk.inj hs
  refine ⟨s, hrun, (enabled_iff_not_quiet hrun).2 ?_⟩
  rintro ⟨-, hrest⟩
  rcases hrest 0 with h | h | ⟨r, h⟩ | h
  · cases hpc.symm.trans h
  · cases hpc.symm.trans h
  · cases hpc.symm.trans h
  · rw [hwait] at h
    cases h

end Fclient.Verify
