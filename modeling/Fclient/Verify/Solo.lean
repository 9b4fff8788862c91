import Fclient.Verify.Serial

/-!
# One worker, every pinpad left by `OK`

A worker that is alone overlaps with nobody, so that the transactions are serial, and no wakeup is
lost either: after `notifyAll` it is past the wait set, and each call returns what was confirmed in
its own pinpad (`solo_run`).
-/

namespace Fclient.Verify

open Base Native Client

/-- Steps of one worker and of the UI thread, without spurious wakeups and without back. -/
def Solo (w₀ : Nat) : Act → Prop
  | .worker _ .wake => False
  | .worker w _ => w = w₀
  | .ui (.back _) => False
  | .ui _ => True

def Phase.uncanceled : Phase → Prop
  | .shown p => p.result = none
  | .finished r | .handled r => r ≠ .canceled
  | _ => True

structure SoloInv (w₀ : Nat) (s : State) : Prop extends SerialInv s where
  awaited : Awaited s
  alone : ∀ w, w ≠ w₀ → s.pc w = .idle
  uncanceled : ∀ c intent f, s.pads c = some ⟨intent, f⟩ → Phase.uncanceled f

theorem soloInv_init (w₀ : Nat) : SoloInv w₀ State.init where
  toSerialInv := serialInv_init
  awaited := awaited_init
  alone _ _ := rfl
  uncanceled _ _ _ h := by cases h

theorem Solo.worker_eq {w w₀ : Nat} {a : WorkerAct} (h : Solo w₀ (.worker w a)) : w = w₀ := by
  cases a with
  | wake => exact h.elim
  | _ => exact h

section Solo

variable {sym : DecimalFormatSymbols} {s t : State} {w₀ : Nat}

/-- A single worker has nobody to overlap with. -/
theorem Solo.serial {a : Act} (h : Solo w₀ a) (halone : ∀ w, w ≠ w₀ → Pc.busy (s.pc w) = false) :
    Serial s a := by
  cases a with
  | ui a => trivial
  | worker w a =>
    obtain rfl := h.worker_eq
    cases a with
    | start => exact halone
    | wake => exact h
    | _ => trivial

theorem SoloInv.serial (hs : SoloInv w₀ s) {a : Act} (h : Solo w₀ a) : Serial s a := by
  refine h.serial fun w hw => ?_
  rw [hs.alone w hw]
  rfl

theorem SoloInv.eq_of_busy (hs : SoloInv w₀ s) {w : Nat} (h : Pc.busy (s.pc w) = true) :
    w = w₀ := by
  by_contra hw
  rw [hs.alone w hw] at h
  cases h

/-- `onActivityResult` runs for the current call of the worker. -/
theorem SoloInv.call_of_handling (hs : SoloInv w₀ s) {c : CallId} {v : JString}
    (hui : UiPc.handling s.ui = some (c, v)) : c = s.call w₀ := by
  obtain ⟨hc, hb⟩ := hs.handling_call hui
  rwa [hs.eq_of_busy (hs.wf.busy_of_blocked hb)] at hc

theorem uncanceled_ofPinpad {p p' : PinpadActivity} {k : Click} (h : click p k = some p')
    (hp : p.result = none) : Phase.uncanceled (Phase.ofPinpad p') := by
  unfold Phase.ofPinpad
  cases hr : p'.result with
  | none => exact hr
  | some r =>
    rintro rfl
    rcases click_result h with e | e
    · rw [hp, hr] at e
      cases e
    · rw [hr] at e
      cases e

theorem uncanceled_ui {a : UiAct} (h : UiStep sym s a t) (hsolo : Solo w₀ (.ui a))
    (hs : ∀ c intent f, s.pads c = some ⟨intent, f⟩ → Phase.uncanceled f) (c : CallId)
    (intent : Intent) (f : Phase) (hpad : t.pads c = some ⟨intent, f⟩) : Phase.uncanceled f := by
  have hmove : ∀ {c' intent' f'}, t.pads = Function.update s.pads c' (some ⟨intent', f'⟩) →
      Phase.uncanceled f' → Phase.uncanceled f := by
    intro c' intent' f' hpads hf
    rw [hpads] at hpad
    by_cases hc : c = c'
    · rw [hc, Function.update_self] at hpad
      cases hpad
      exact hf
    · exact hs c intent f (by rwa [Function.update_of_ne hc] at hpad)
  cases h with
  | create hui hpad' hp => exact hmove rfl (onCreate_eq_ok hp).2.2.2
  | click hui hpad' hclick => exact hmove rfl (uncanceled_ofPinpad hclick (hs _ _ _ hpad'))
  | back => exact hsolo.elim
  | deliverOk => exact hmove rfl trivial
  | deliverCanceled hui hpad' => exact absurd rfl (hs _ _ _ hpad')
  | notify => exact hmove rfl ActivityResult.noConfusion
  | write | enter | exit => exact hs c intent f hpad

theorem SoloInv.notCanceled (hs : SoloInv w₀ s) (a : Act) : NotCanceled s a := by
  cases a with
  | worker w a => trivial
  | ui a =>
    cases a with
    | deliver c =>
      rintro ⟨intent, hpad⟩
      exact absurd rfl (hs.uncanceled c intent _ hpad)
    | _ => trivial

theorem SoloInv.worker_step {a : WorkerAct} (hs : SoloInv w₀ s) (h : WorkerStep s w₀ a t)
    (hsolo : Solo w₀ (.worker w₀ a)) : SoloInv w₀ t where
  toSerialInv := hs.toSerialInv.worker_step h (hs.serial hsolo)
  awaited := awaited_worker h hs.wf hs.awaited
  alone w hw := (h.pc_ne hw).trans (hs.alone w hw)
  uncanceled c intent f hpad := by
    obtain ⟨-, -, -, ptc, hpads⟩ | ⟨-, hpads⟩ := h.pads_eq
    · rw [hpads] at hpad
      by_cases hc : c = s.call w₀
      · rw [hc, Function.update_self] at hpad
        cases hpad
        trivial
      · exact hs.uncanceled c intent f (by rwa [Function.update_of_ne hc] at hpad)
    · exact hs.uncanceled c intent f (hpads ▸ hpad)

theorem SoloInv.ui_step {a : UiAct} (hs : SoloInv w₀ s) (h : UiStep sym s a t)
    (hsolo : Solo w₀ (.ui a)) : SoloInv w₀ t where
  toSerialInv := hs.toSerialInv.ui_step h
  awaited := awaited_ui h hs.wf (hs.notCanceled _) hs.awaited
  alone w hw := by
    rw [State.pc, h.workers_eq]
    exact hs.alone w hw
  uncanceled := uncanceled_ui h hsolo hs.uncanceled

theorem SoloInv.step {a : Act} (hs : SoloInv w₀ s) (hsolo : Solo w₀ a)
    (h : step sym s a = some t) : SoloInv w₀ t := by
  cases a with
  | worker w a =>
    obtain rfl := hsolo.worker_eq
    exact hs.worker_step (workerStep_cases h) hsolo
  | ui a => exact hs.ui_step (uiStep_cases h) hsolo

theorem soloInv_run {acts : List Act} (hsolo : ∀ a ∈ acts, Solo w₀ a)
    (hrun : run (Client.step sym) State.init acts = some s) : SoloInv w₀ s :=
  run_invariant (fun _ _ _ hs hsolo h => hs.step hsolo h) (soloInv_init w₀)
    (along_of_mem hsolo State.init) hrun

/-- The `notifyAll` for the pinpad of the current call has been executed. -/
def Notified (s : State) (w : Nat) : Prop :=
  ∃ intent v, s.pads (s.call w) = some ⟨intent, .handled (.ok v)⟩

theorem SoloInv.notified (hs : SoloInv w₀ s) (hn : Notified s w₀) :
    (s.pc w₀ = .waiting ∨ s.pc w₀ = .exit ∨ s.pc w₀ = .ret) ∧
      .worker w₀ ∉ s.monitor.waitSet := by
  obtain ⟨intent, v, hpad⟩ := hn
  have hb : ¬ Blocked s w₀ := by
    intro hb
    obtain ⟨pad, hpad', hout⟩ := hs.awaited w₀ hb
    cases hpad.symm.trans hpad'
    exact Bool.false_ne_true hout
  refine ⟨?_, fun hmem => hb (.inr hmem)⟩
  rcases hs.wf.pad_call hpad with hret | ⟨-, hl⟩
  · exact absurd ((hs.wf.returned _).1 hret) (Nat.lt_irrefl _)
  · have hl : Pc.launched (s.pc w₀) = true := hl
    cases hpc : s.pc w₀ with
    | wait => exact absurd (.inl hpc) hb
    | waiting => exact .inl rfl
    | exit => exact .inr (.inl rfl)
    | ret => exact .inr (.inr rfl)
    | _ =>
      rw [hpc] at hl
      exact absurd hl Bool.false_ne_true

theorem SoloInv.returned_of_confirmed (hs : SoloInv w₀ s) (hpc : s.pc w₀ = .reset) {c : CallId}
    {v : JString} (hc : s.confirmed c = some v) : s.returned c = some v := by
  obtain ⟨pad, hpad, -⟩ := Option.bind_eq_some_iff.1 hc
  rcases hs.wf.pad_call hpad with hret | ⟨-, hl⟩
  · obtain ⟨v', hret⟩ := Option.ne_none_iff_exists'.1 hret
    rw [hs.confirmed_of_returned hret] at hc
    exact hret.trans hc
  · rw [hs.eq_of_busy (Pc.busy_of_launched hl), hpc] at hl
    cases hl

/-- Its transactions overlap with none from any state in which the others are not in progress. -/
theorem serial_of_solo {acts : List Act} (halone : ∀ w, w ≠ w₀ → Pc.busy (s.pc w) = false)
    (hsolo : ∀ a ∈ acts, Solo w₀ a) : Along (Client.step sym) Serial s acts := by
  refine Along.of_invariant (I := fun s => ∀ w, w ≠ w₀ → Pc.busy (s.pc w) = false) ?_
    (fun s a halone hsolo => hsolo.serial halone) halone (along_of_mem hsolo s)
  intro s a t hs hsolo h w hw
  cases a with
  | worker w' a =>
    obtain rfl := hsolo.worker_eq
    rw [(workerStep_cases h).pc_ne hw]
    exact hs w hw
  | ui a =>
    rw [State.pc, (uiStep_cases h).workers_eq]
    exact hs w hw

end Solo

/-- **No lost wakeup.** With one worker, every pinpad left by `OK` and no spurious wakeup: once
`notifyAll` was executed for the current prompt, the worker is past the wait set of that prompt; a
reset of `pin` finds every confirmed PIN returned; and a call returns exactly what was confirmed in
its own pinpad. -/
theorem solo_run (sym : DecimalFormatSymbols) (w₀ : Nat) {acts : List Act} {s : State}
    (hsolo : ∀ a ∈ acts, Solo w₀ a) (hrun : run (step sym) State.init acts = some s) :
    (Notified s w₀ → (s.pc w₀ = .waiting ∨ s.pc w₀ = .exit ∨ s.pc w₀ = .ret) ∧
      .worker w₀ ∉ s.monitor.waitSet) ∧
    (s.pc w₀ = .reset → ∀ c v, s.confirmed c = some v → s.returned c = some v) ∧
    ∀ c v, s.returned c = some v → s.confirmed c = some v := by
  have hs := soloInv_run hsolo hrun
  exact ⟨hs.notified, fun hpc _ _ => hs.returned_of_confirmed hpc,
    fun _ _ => hs.confirmed_of_returned⟩

/-- The keys are clicked and the PIN confirmed, and `onActivityResult` runs for it. -/
def okRun (c : CallId) (keys : List (Fin 10)) : List Act :=
  keys.map (fun k => .ui (.click c (.key k))) ++
    [.ui (.click c .ok), .ui (.deliver c), .ui .write, .ui .enter, .ui .notify, .ui .exit]

def returnRun (w : Nat) : List Act := [.worker w .resume, .worker w .exit, .worker w .ret]

def roubleRun (keys : List (Fin 10)) : List Act :=
  promptRun 0 rouble ++ okRun ⟨0, 0⟩ keys ++ returnRun 0

theorem solo_roubleRun (keys : List (Fin 10)) : ∀ a ∈ roubleRun keys, Solo 0 a := by
  simp only [roubleRun, promptRun, okRun, returnRun, List.forall_mem_append, List.forall_mem_cons,
    List.forall_mem_map, List.not_mem_nil, false_imp_iff, implies_true, Solo, and_self]

theorem solo_compared (keys : List (Fin 10)) (released : List UInt8) :
    ∀ a ∈ roubleRun keys ++ [.worker 0 (.compare released)], Solo 0 a := by
  intro a ha
  rcases List.mem_append.1 ha with ha | ha
  · exact solo_roubleRun _ a ha
  · rw [List.mem_singleton.1 ha]
    rfl

/-- The worker compares what it got, with the released buffer still readable. -/
def comparedRun (keys : List (Fin 10)) : List Act :=
  roubleRun keys ++ [.worker 0 (.compare (encodeUtf (keys.flatMap layoutLabels)))]

theorem solo_comparedRun (keys : List (Fin 10)) : ∀ a ∈ comparedRun keys, Solo 0 a :=
  solo_compared keys _

theorem solo_run_rouble : ∃ s,
    run (step symbolsEn) State.init (roubleRun [4, 3, 4, 3]) = some s ∧
    s.returned ⟨0, 0⟩ = some (jstr "4343") ∧
    (Notified s 0 → (s.pc 0 = .waiting ∨ s.pc 0 = .exit ∨ s.pc 0 = .ret) ∧
      .worker 0 ∉ s.monitor.waitSet) ∧
    (s.pc 0 = .reset → ∀ c v, s.confirmed c = some v → s.returned c = some v) ∧
    ∀ c v, s.returned c = some v → s.confirmed c = some v := by
  have hret : (run (step symbolsEn) State.init (roubleRun [4, 3, 4, 3])).map
      (fun s => s.returned ⟨0, 0⟩) = some (some (jstr "4343")) := by decide +kernel
  obtain ⟨s, hrun, hret⟩ := Option.map_eq_some_iff.1 hret
  exact ⟨s, hrun, hret, solo_run symbolsEn 0 (solo_roubleRun _) hrun⟩

end Fclient.Verify
