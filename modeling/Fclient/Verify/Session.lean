import Fclient.Base.Run
import Fclient.Client.Session
import Fclient.Verify.Transaction

/-!
# Steps of the running application, and what always holds

`WorkerStep` and `UiStep` list what one step can do, with everything the step tests;
`workerStep_cases` and `uiStep_cases` read them off the step functions. `Wf` collects what holds in
every reachable state whatever the interleaving (`wf_run`): mutual exclusion, who can be in the wait
set, and which pinpads and returned strings there are.
-/

namespace Fclient.Verify

open Base Native Client

/-! ## What a step can do -/

inductive WorkerStep (s : State) (w : Nat) : WorkerAct → State → Prop
  | rejected {trd stack} (hpc : s.pc w = .idle) (hm : malformed trd.elements = true) :
    WorkerStep s w (.start trd stack) (s.setPc w .rejected)
  | accepted {trd stack} (hpc : s.pc w = .idle) (hm : malformed trd.elements = false) :
    WorkerStep s w (.start trd stack) (s.setWorker w
      { s.workers w with amount := amountString stack trd.elements, ptc := 3, pc := .head })
  | prompt (hpc : s.pc w = .head) (hptc : 0 < (s.workers w).ptc) :
    WorkerStep s w .loop (s.setPc w .reset)
  | exhausted (hpc : s.pc w = .head) (hptc : (s.workers w).ptc = 0) :
    WorkerStep s w .loop (s.setPc w (.done false))
  | reset (hpc : s.pc w = .reset) :
    WorkerStep s w .reset { s.setPc w .enter with pin := some [] }
  | enter (hpc : s.pc w = .enter) (hfree : s.monitor.owner = none) :
    WorkerStep s w .enter
      { s.setPc w .launch with monitor := ⟨some (.worker w), s.monitor.waitSet⟩ }
  | launch (hpc : s.pc w = .launch) :
    WorkerStep s w .launch ((s.setPad (s.call w)
      ⟨enterPINIntent (Int32.ofNat (s.workers w).ptc) (s.workers w).amount, .starting⟩).setPc w
        .wait)
  | wait (hpc : s.pc w = .wait) (howner : s.monitor.owner = some (.worker w)) :
    WorkerStep s w .wait
      { s.setPc w .waiting with monitor := ⟨none, .worker w :: s.monitor.waitSet⟩ }
  | wake (hpc : s.pc w = .waiting) (hmem : .worker w ∈ s.monitor.waitSet) :
    WorkerStep s w .wake
      { s with monitor := ⟨s.monitor.owner, s.monitor.waitSet.filter (· ≠ .worker w)⟩ }
  | resume (hpc : s.pc w = .waiting) (hmem : .worker w ∉ s.monitor.waitSet)
      (hfree : s.monitor.owner = none) :
    WorkerStep s w .resume
      { s.setPc w .exit with monitor := ⟨some (.worker w), s.monitor.waitSet⟩ }
  | exit (hpc : s.pc w = .exit) (howner : s.monitor.owner = some (.worker w)) :
    WorkerStep s w .exit { s.setPc w .ret with monitor := ⟨none, s.monitor.waitSet⟩ }
  | ret {v} (hpc : s.pc w = .ret) (hpin : s.pin = some v) :
    WorkerStep s w .ret
      { s.setWorker w { s.workers w with calls := (s.workers w).calls + 1, pc := .compare v } with
        returned := Function.update s.returned (s.call w) (some v) }
  | matched {v released} (hpc : s.pc w = .compare v)
      (hm : pinMatches (pinBuffer v released) = true) :
    WorkerStep s w (.compare released)
      (s.setPc w (.done (decide (0 < (s.workers w).ptc))))
  | mismatched {v released} (hpc : s.pc w = .compare v)
      (hm : pinMatches (pinBuffer v released) = false) :
    WorkerStep s w (.compare released)
      (s.setWorker w { s.workers w with ptc := (s.workers w).ptc - 1, pc := .head })

theorem workerStep_cases {s t : State} {w : Nat} {a : WorkerAct} (h : workerStep s w a = some t) :
    WorkerStep s w a t := by
  unfold workerStep at h
  simp only at h
  split at h
  case h_1 trd stack hpc =>
    split at h <;> rename_i hm <;> cases h
    · exact .rejected hpc hm
    · exact .accepted hpc (Bool.not_eq_true _ ▸ hm)
  case h_2 hpc =>
    cases h
    split
    · exact .prompt hpc ‹_›
    · exact .exhausted hpc (by omega)
  case h_3 hpc =>
    cases h
    exact .reset hpc
  case h_4 hpc =>
    obtain ⟨m, hm, rfl⟩ := Option.map_eq_some_iff.1 h
    obtain ⟨hfree, rfl⟩ := Monitor.enter_eq_some.1 hm
    exact .enter hpc hfree
  case h_5 hpc =>
    cases h
    exact .launch hpc
  case h_6 hpc =>
    obtain ⟨m, hm, rfl⟩ := Option.map_eq_some_iff.1 h
    obtain ⟨howner, rfl⟩ := Monitor.wait_eq_some.1 hm
    exact .wait hpc howner
  case h_7 hpc =>
    obtain ⟨m, hm, rfl⟩ := Option.map_eq_some_iff.1 h
    obtain ⟨hmem, rfl⟩ := Monitor.wake_eq_some.1 hm
    exact .wake hpc hmem
  case h_8 hpc =>
    obtain ⟨m, hm, rfl⟩ := Option.map_eq_some_iff.1 h
    obtain ⟨hmem, hfree, rfl⟩ := Monitor.resume_eq_some.1 hm
    exact .resume hpc hmem hfree
  case h_9 hpc =>
    obtain ⟨m, hm, rfl⟩ := Option.map_eq_some_iff.1 h
    obtain ⟨howner, rfl⟩ := Monitor.exit_eq_some.1 hm
    exact .exit hpc howner
  case h_10 hpc =>
    obtain ⟨v, hpin, rfl⟩ := Option.map_eq_some_iff.1 h
    exact .ret hpc hpin
  case h_11 v released hpc =>
    cases h
    split <;> rename_i hm
    · exact .matched hpc hm
    · exact .mismatched hpc (Bool.not_eq_true _ ▸ hm)
  case h_12 => cases h

inductive UiStep (sym : DecimalFormatSymbols) (s : State) : UiAct → State → Prop
  | create {c rnd intent p} (hui : s.ui = .idle) (hpad : s.pads c = some ⟨intent, .starting⟩)
      (hp : onCreate sym rnd intent = .ok p) :
    UiStep sym s (.create c rnd) (s.setPad c ⟨intent, .shown p⟩)
  | click {c k intent p p'} (hui : s.ui = .idle) (hpad : s.pads c = some ⟨intent, .shown p⟩)
      (hclick : click p k = some p') :
    UiStep sym s (.click c k) (s.setPad c ⟨intent, Phase.ofPinpad p'⟩)
  | back {c intent p} (hui : s.ui = .idle) (hpad : s.pads c = some ⟨intent, .shown p⟩) :
    UiStep sym s (.back c) (s.setPad c ⟨intent, .finished .canceled⟩)
  | deliverOk {c intent v} (hui : s.ui = .idle)
      (hpad : s.pads c = some ⟨intent, .finished (.ok v)⟩) :
    UiStep sym s (.deliver c) { s.setPad c ⟨intent, .handling v⟩ with ui := .write c v }
  | deliverCanceled {c intent} (hui : s.ui = .idle)
      (hpad : s.pads c = some ⟨intent, .finished .canceled⟩) :
    UiStep sym s (.deliver c) (s.setPad c ⟨intent, .handled .canceled⟩)
  | write {c v} (hui : s.ui = .write c v) :
    UiStep sym s .write { s with pin := some v, ui := .enter c v }
  | enter {c v} (hui : s.ui = .enter c v) (hfree : s.monitor.owner = none) :
    UiStep sym s .enter
      { s with monitor := ⟨some .ui, s.monitor.waitSet⟩, ui := .notify c v }
  | notify {c v pad} (hui : s.ui = .notify c v) (howner : s.monitor.owner = some .ui)
      (hpad : s.pads c = some pad) :
    UiStep sym s .notify { s.setPad c ⟨pad.intent, .handled (.ok v)⟩ with
      monitor := ⟨some .ui, []⟩, ui := .exit }
  | exit (hui : s.ui = .exit) (howner : s.monitor.owner = some .ui) :
    UiStep sym s .exit { s with monitor := ⟨none, s.monitor.waitSet⟩, ui := .idle }

theorem uiStep_cases {sym : DecimalFormatSymbols} {s t : State} {a : UiAct}
    (h : uiStep sym s a = some t) : UiStep sym s a t := by
  unfold uiStep at h
  split at h
  case h_1 c rnd hui =>
    split at h
    case h_1 intent hpad =>
      obtain ⟨p, hp, rfl⟩ := Option.map_eq_some_iff.1 h
      refine .create hui hpad ?_
      cases e : onCreate sym rnd intent with
      | ok q => simpa [e, Except.toOption] using hp
      | error e' => simp [e, Except.toOption] at hp
    case h_2 => cases h
  case h_2 c k hui =>
    split at h
    case h_1 intent p hpad =>
      obtain ⟨p', hclick, rfl⟩ := Option.map_eq_some_iff.1 h
      exact .click hui hpad hclick
    case h_2 => cases h
  case h_3 c hui =>
    split at h
    case h_1 intent p hpad =>
      cases h
      exact .back hui hpad
    case h_2 => cases h
  case h_4 c hui =>
    split at h
    case h_1 intent v hpad =>
      cases h
      exact .deliverOk hui hpad
    case h_2 intent hpad =>
      cases h
      exact .deliverCanceled hui hpad
    case h_3 => cases h
  case h_5 c v hui =>
    cases h
    exact .write hui
  case h_6 c v hui =>
    obtain ⟨m, hm, rfl⟩ := Option.map_eq_some_iff.1 h
    obtain ⟨hfree, rfl⟩ := Monitor.enter_eq_some.1 hm
    exact .enter hui hfree
  case h_7 c v hui =>
    obtain ⟨m, hm, h⟩ := Option.bind_eq_some_iff.1 h
    obtain ⟨pad, hpad, rfl⟩ := Option.map_eq_some_iff.1 h
    obtain ⟨howner, rfl⟩ := Monitor.notifyAll_eq_some.1 hm
    exact .notify hui howner hpad
  case h_8 hui =>
    obtain ⟨m, hm, rfl⟩ := Option.map_eq_some_iff.1 h
    obtain ⟨howner, rfl⟩ := Monitor.exit_eq_some.1 hm
    exact .exit hui howner
  case h_9 => cases h

/-! ## Frames -/

section Frames

variable {sym : DecimalFormatSymbols} {s t : State} {w : Nat}

theorem WorkerStep.workers_ne {a : WorkerAct} (h : WorkerStep s w a t) {w' : Nat} (hne : w' ≠ w) :
    t.workers w' = s.workers w' := by
  cases h <;> first | rfl | exact Function.update_of_ne hne _ _

theorem WorkerStep.pc_ne {a : WorkerAct} (h : WorkerStep s w a t) {w' : Nat} (hne : w' ≠ w) :
    t.pc w' = s.pc w' :=
  congrArg Worker.pc (h.workers_ne hne)

theorem WorkerStep.call_ne {a : WorkerAct} (h : WorkerStep s w a t) {w' : Nat} (hne : w' ≠ w) :
    t.call w' = s.call w' := by
  rw [State.call, h.workers_ne hne]
  rfl

theorem WorkerStep.ui_eq {a : WorkerAct} (h : WorkerStep s w a t) : t.ui = s.ui := by
  cases h <;> rfl

theorem UiStep.workers_eq {a : UiAct} (h : UiStep sym s a t) : t.workers = s.workers := by
  cases h <;> rfl

theorem UiStep.returned_eq {a : UiAct} (h : UiStep sym s a t) : t.returned = s.returned := by
  cases h <;> rfl

@[simp] theorem pc_setWorker (x : Worker) : (s.setWorker w x).pc w = x.pc := by
  simp [State.pc, State.setWorker]

@[simp] theorem pc_setPc (pc : Pc) : (s.setPc w pc).pc w = pc := pc_setWorker _

end Frames

/-! ## Mutual exclusion -/

def Pc.inside : Pc → Bool
  | .launch | .wait | .exit => true
  | _ => false

def UiPc.inside : UiPc → Bool
  | .notify _ _ | .exit => true
  | _ => false

def inside (s : State) : Thread → Prop
  | .worker w => Pc.inside (s.pc w)
  | .ui => UiPc.inside s.ui

section Guards

variable {sym : DecimalFormatSymbols} {s t : State} {w : Nat}

theorem WorkerStep.inside_ne {a : WorkerAct} (h : WorkerStep s w a t) {u : Thread}
    (hne : u ≠ .worker w) : inside t u ↔ inside s u := by
  cases u with
  | worker w' => simp only [inside, h.pc_ne fun e => hne (e ▸ rfl)]
  | ui => simp only [inside, h.ui_eq]

theorem UiStep.inside_ne {a : UiAct} (h : UiStep sym s a t) {u : Thread} (hne : u ≠ .ui) :
    inside t u ↔ inside s u := by
  cases u with
  | worker w' => simp only [inside, State.pc, h.workers_eq]
  | ui => exact absurd rfl hne

/-- Nobody but the worker that took the step can be new inside. -/
theorem WorkerStep.inside_or {a : WorkerAct} (h : WorkerStep s w a t) (u : Thread)
    (hu : inside t u) : u = .worker w ∨ inside s u := by
  by_cases he : u = .worker w
  · exact .inl he
  · exact .inr ((h.inside_ne he).1 hu)

/-- The others stay where they are when the worker is outside after its step. -/
theorem WorkerStep.inside_of_out {a : WorkerAct} (h : WorkerStep s w a t)
    (hout : Pc.inside (t.pc w) = false) (u : Thread) (hu : inside t u) :
    u ≠ .worker w ∧ inside s u := by
  have hne : u ≠ .worker w := by
    rintro rfl
    exact absurd (hout ▸ hu) Bool.false_ne_true
  exact ⟨hne, (h.inside_ne hne).1 hu⟩

theorem guards_worker {a : WorkerAct} (h : WorkerStep s w a t)
    (hg : s.monitor.Guards (inside s)) : t.monitor.Guards (inside t) := by
  have hor := h.inside_or
  have hout := h.inside_of_out
  cases h with
  | enter hpc hfree => exact hg.acquire hfree rfl hor
  | resume hpc hmem hfree => exact hg.acquire hfree rfl hor
  | wait hpc howner => exact hg.release howner (hout (congrArg Pc.inside (pc_setPc .waiting)))
  | exit hpc howner => exact hg.release howner (hout (congrArg Pc.inside (pc_setPc .ret)))
  | launch hpc =>
    refine hg.mono rfl fun u hu => ?_
    rcases hor u hu with rfl | hu
    · rw [inside, hpc]
      rfl
    · exact hu
  | wake hpc hmem => exact hg.mono rfl fun u hu => (hout (congrArg Pc.inside hpc) u hu).2
  | ret hpc hpin =>
    exact hg.mono rfl fun u hu => (hout (congrArg Pc.inside (pc_setWorker _)) u hu).2
  | reset hpc =>
    exact hg.mono rfl fun u hu => (hout (congrArg Pc.inside (pc_setPc .enter)) u hu).2
  | rejected | accepted | prompt | exhausted | matched | mismatched =>
    exact hg.mono rfl fun u hu => (hout (by simp [Pc.inside]) u hu).2

theorem guards_ui {a : UiAct} (h : UiStep sym s a t) (hg : s.monitor.Guards (inside s)) :
    t.monitor.Guards (inside t) := by
  have hor : ∀ u, inside t u → u = .ui ∨ inside s u := by
    intro u hu
    by_cases he : u = .ui
    · exact .inl he
    · exact .inr ((h.inside_ne he).1 hu)
  cases h with
  | enter hui hfree => exact hg.acquire hfree rfl hor
  | exit hui howner =>
    refine hg.release howner fun u hu => ?_
    have hne : u ≠ .ui := by
      rintro rfl
      exact Bool.false_ne_true hu
    exact ⟨hne, (hor u hu).resolve_left hne⟩
  | notify hui howner hpad =>
    refine hg.mono howner.symm fun u hu => ?_
    rcases hor u hu with rfl | hin
    · rw [inside, hui]
      rfl
    · exact hin
  | deliverOk hui hpad | write hui =>
    refine hg.mono rfl fun u hu => ?_
    rcases hor u hu with rfl | hin
    · exact absurd hu Bool.false_ne_true
    · exact hin
  | create | click | back | deliverCanceled => exact hg.mono rfl fun u hu => hu

end Guards

/-! ## What a step does to the pinpads -/

/-- Between the launch of its pinpad and the return of the call. -/
def Pc.launched : Pc → Bool
  | .wait | .waiting | .exit | .ret => true
  | _ => false

/-- Past the reset of `pin`, and not yet returned. -/
def Pc.inCall : Pc → Bool
  | .enter | .launch | .wait | .waiting | .exit | .ret => true
  | _ => false

/-- How many pinpads a worker has launched. -/
def launches (x : Worker) : Nat := x.calls + (Pc.launched x.pc).toNat

section Pads

variable {sym : DecimalFormatSymbols} {s t : State} {w : Nat}

@[simp] theorem workers_setWorker (x : Worker) : (s.setWorker w x).workers w = x :=
  Function.update_self _ _ _

/-- A worker step launches the pinpad of the current call, or no pinpad at all. -/
theorem WorkerStep.pads_eq {a : WorkerAct} (h : WorkerStep s w a t) :
    (s.pc w = .launch ∧ launches (t.workers w) = launches (s.workers w) + 1 ∧
      (t.workers w).amount = (s.workers w).amount ∧
      ∃ ptc, t.pads = Function.update s.pads (s.call w)
        (some ⟨enterPINIntent ptc (s.workers w).amount, .starting⟩)) ∨
    (launches (t.workers w) = launches (s.workers w) ∧ t.pads = s.pads) := by
  cases h with
  | launch hpc =>
    refine .inl ⟨hpc, ?_, ?_, _, rfl⟩
    · have hpc : (s.workers w).pc = .launch := hpc
      simp [State.setPc, State.setPad, launches, Pc.launched, hpc]
    · simp [State.setPc, State.setPad]
  | wake hpc => exact .inr ⟨rfl, rfl⟩
  | ret hpc | rejected hpc | accepted hpc | prompt hpc | exhausted hpc | reset hpc | enter hpc
  | wait hpc | resume hpc | exit hpc | matched hpc | mismatched hpc =>
    refine .inr ⟨?_, rfl⟩
    unfold State.pc at hpc
    simp [State.setPc, State.setWorker, launches, Pc.launched, hpc]

theorem WorkerStep.pads_ne {a : WorkerAct} (h : WorkerStep s w a t) {c : CallId}
    (hne : c.worker ≠ w) : t.pads c = s.pads c := by
  obtain ⟨-, -, -, ptc, e⟩ | ⟨-, e⟩ := h.pads_eq
  · rw [e, Function.update_of_ne fun hc => hne (congrArg CallId.worker hc)]
  · rw [e]

/-- A worker step returns from the current call what the field `pin` holds, or does not return. -/
theorem WorkerStep.returned_eq {a : WorkerAct} (h : WorkerStep s w a t) :
    (∃ v, s.pc w = .ret ∧ s.pin = some v ∧ (t.workers w).calls = (s.workers w).calls + 1 ∧
      t.returned = Function.update s.returned (s.call w) (some v)) ∨
    ((t.workers w).calls = (s.workers w).calls ∧ t.returned = s.returned) := by
  cases h with
  | ret hpc hpin => exact .inl ⟨_, hpc, hpin, by simp [State.setWorker], rfl⟩
  | _ => exact .inr ⟨by simp [State.setPc, State.setWorker, State.setPad], rfl⟩

/-- The amount of a worker is only set before its first call. -/
theorem WorkerStep.amount_eq {a : WorkerAct} (h : WorkerStep s w a t) (hpc : s.pc w ≠ .idle) :
    (t.workers w).amount = (s.workers w).amount := by
  cases h with
  | rejected h | accepted h => exact absurd h hpc
  | wake => rfl
  | _ => simp [State.setPc, State.setPad]

/-- The UI thread moves one pinpad to its next phase at most. -/
theorem UiStep.pads_eq {a : UiAct} (h : UiStep sym s a t) : t.pads = s.pads ∨
    ∃ c pad f, s.pads c = some pad ∧
      t.pads = Function.update s.pads c (some ⟨pad.intent, f⟩) := by
  cases h with
  | write | enter | exit => exact .inl rfl
  | create hui hpad | click hui hpad | back hui hpad | deliverOk hui hpad
  | deliverCanceled hui hpad | notify hui howner hpad => exact .inr ⟨_, _, _, hpad, rfl⟩

theorem UiStep.intent_eq {a : UiAct} (h : UiStep sym s a t) (c : CallId) :
    (t.pads c).map Pad.intent = (s.pads c).map Pad.intent := by
  obtain e | ⟨c', pad, f, hpad, e⟩ := h.pads_eq
  · rw [e]
  · rw [e]
    by_cases hc : c = c'
    · subst hc
      rw [Function.update_self, hpad]
      rfl
    · rw [Function.update_of_ne hc]

end Pads

/-! ## What holds in every reachable state -/

/-- The call and the PIN that `onActivityResult` is executing for, up to its `notifyAll`. -/
def UiPc.handling : UiPc → Option (CallId × JString)
  | .write c v | .enter c v | .notify c v => some (c, v)
  | _ => none

structure Wf (s : State) : Prop where
  guards : s.monitor.Guards (inside s)
  waitSet : ∀ w, .worker w ∈ s.monitor.waitSet → s.pc w = .waiting
  idle : ∀ w, s.pc w = .idle → (s.workers w).calls = 0
  pads : ∀ c, s.pads c ≠ none ↔ c.index < launches (s.workers c.worker)
  amount : ∀ c pad, s.pads c = some pad → pad.intent.amount = some (s.workers c.worker).amount
  handling : ∀ c v, UiPc.handling s.ui = some (c, v) →
    ∃ intent, s.pads c = some ⟨intent, .handling v⟩
  returned : ∀ c, s.returned c ≠ none ↔ c.index < (s.workers c.worker).calls
  compared : ∀ w v, s.pc w = .compare v →
    ∃ k, (s.workers w).calls = k + 1 ∧ s.returned ⟨w, k⟩ = some v
  approved : ∀ w, s.pc w = .done true →
    ∃ k v, (s.workers w).calls = k + 1 ∧ s.returned ⟨w, k⟩ = some v

theorem wf_init : Wf State.init where
  guards t ht := by cases t <;> exact absurd ht Bool.false_ne_true
  waitSet w h := absurd h List.not_mem_nil
  idle w _ := rfl
  pads c := by simp [State.init, launches, Pc.launched]
  amount c pad h := by cases h
  handling c v h := by cases h
  returned c := by simp [State.init]
  compared w v h := by cases h
  approved w h := by cases h

section Worker

variable {s t : State} {w : Nat} {a : WorkerAct}

theorem WorkerStep.mem_waitSet (h : WorkerStep s w a t) {w' : Nat} (hne : w' ≠ w)
    (hmem : .worker w' ∈ t.monitor.waitSet) : .worker w' ∈ s.monitor.waitSet := by
  cases h with
  | wait => exact (List.mem_cons.1 hmem).resolve_left fun e => hne (Thread.worker.inj e)
  | wake => exact List.mem_of_mem_filter hmem
  | _ => exact hmem

theorem waitSet_worker (h : WorkerStep s w a t)
    (hs : ∀ w, .worker w ∈ s.monitor.waitSet → s.pc w = .waiting) (w' : Nat)
    (hmem : .worker w' ∈ t.monitor.waitSet) : t.pc w' = .waiting := by
  by_cases hw : w' = w
  · subst hw
    cases h with
    | wait hpc howner => exact pc_setPc .waiting
    | wake hpc => exact hpc
    | resume hpc hout => exact absurd hmem hout
    | rejected hpc | accepted hpc | prompt hpc | exhausted hpc | reset hpc | enter hpc
    | launch hpc | exit hpc | ret hpc | matched hpc | mismatched hpc =>
      cases hpc.symm.trans (hs w' hmem)
  · rw [h.pc_ne hw]
    exact hs w' (h.mem_waitSet hw hmem)

theorem idle_worker (h : WorkerStep s w a t)
    (hs : ∀ w, s.pc w = .idle → (s.workers w).calls = 0) (w' : Nat) (hpc : t.pc w' = .idle) :
    (t.workers w').calls = 0 := by
  by_cases hw : w' = w
  · subst hw
    cases h with
    | wake h => cases h.symm.trans hpc
    | _ => simp [State.pc, State.setPc, State.setWorker] at hpc
  · rw [h.workers_ne hw]
    exact hs w' (h.pc_ne hw ▸ hpc)

/-- A call begins with the reset and ends with the return. -/
theorem WorkerStep.inCall_self (h : WorkerStep s w a t) (hin : Pc.inCall (t.pc w) = true) :
    t.pin = some [] ∨ Pc.inCall (s.pc w) = true ∧ t.pin = s.pin ∧ t.call w = s.call w := by
  cases h with
  | reset => exact .inl rfl
  | wake => exact .inr ⟨hin, rfl, rfl⟩
  | enter hpc | launch hpc | wait hpc | resume hpc | exit hpc =>
    refine .inr ⟨by rw [hpc]; rfl, rfl, ?_⟩
    simp [State.call, State.setPc, State.setPad]
  | rejected | accepted | prompt | exhausted | ret | matched | mismatched =>
    simp [State.pc, State.setPc, State.setWorker, Pc.inCall] at hin

/-- Of the workers, only a reset writes to the field `pin`. -/
theorem WorkerStep.pin_eq (h : WorkerStep s w a t) :
    t.pin = s.pin ∨ s.pc w = .reset ∧ t.pin = some [] := by
  cases h with
  | reset hpc => exact .inr ⟨hpc, rfl⟩
  | _ => exact .inl rfl

theorem launches_of_launch (hpc : s.pc w = .launch) :
    launches (s.workers w) = (s.workers w).calls := by
  unfold State.pc at hpc
  simp [launches, hpc, Pc.launched]

theorem Wf.pads_call (hs : Wf s) (hpc : s.pc w = .launch) : s.pads (s.call w) = none := by
  by_contra hne
  have hlt := (hs.pads (s.call w)).1 hne
  simp only [State.call, launches_of_launch hpc, Nat.lt_irrefl] at hlt

theorem WorkerStep.pads_mono (h : WorkerStep s w a t) (hs : Wf s)
    {c : CallId} {pad : Pad} (hpad : s.pads c = some pad) : t.pads c = some pad := by
  obtain ⟨hpc, -, -, ptc, hpads⟩ | ⟨-, hpads⟩ := h.pads_eq
  · have hne : c ≠ s.call w := by
      rintro rfl
      simp [hs.pads_call hpc] at hpad
    rwa [hpads, Function.update_of_ne hne]
  · rwa [hpads]

/-- Calls that are filled in their order: the next one of a worker extends them by one. -/
theorem update_call_ne_none {β : Type*} {f : CallId → Option β} {c : CallId} {n : Nat}
    (h : f c ≠ none ↔ c.index < n) (x : β) :
    Function.update f ⟨c.worker, n⟩ (some x) c ≠ none ↔ c.index < n + 1 := by
  by_cases hidx : c.index = n
  · subst hidx
    rw [Function.update_self]
    simp
  · have hc : c ≠ ⟨c.worker, n⟩ := fun e => hidx (congrArg CallId.index e)
    rw [Function.update_of_ne hc, h]
    omega

theorem pads_worker (h : WorkerStep s w a t) (hs : Wf s) (c : CallId) :
    t.pads c ≠ none ↔ c.index < launches (t.workers c.worker) := by
  by_cases hw : c.worker = w
  · subst hw
    obtain ⟨hpc, hl, -, ptc, hpads⟩ | ⟨hl, hpads⟩ := h.pads_eq
    · have hold := hs.pads c
      rw [launches_of_launch hpc] at hold
      rw [hl, hpads, launches_of_launch hpc]
      exact update_call_ne_none hold _
    · rw [hl, hpads, hs.pads c]
  · obtain ⟨-, -, -, ptc, hpads⟩ | ⟨-, hpads⟩ := h.pads_eq
    · have hc : c ≠ s.call w := fun e => hw (congrArg CallId.worker e)
      rw [h.workers_ne hw, hpads, Function.update_of_ne hc, hs.pads c]
    · rw [h.workers_ne hw, hpads, hs.pads c]

theorem amount_worker (h : WorkerStep s w a t) (hs : Wf s) (c : CallId) (pad : Pad)
    (hpad : t.pads c = some pad) : pad.intent.amount = some (t.workers c.worker).amount := by
  obtain ⟨hpc, -, hamount, ptc, hpads⟩ | ⟨-, hpads⟩ := h.pads_eq
  · rw [hpads] at hpad
    by_cases hc : c = s.call w
    · subst hc
      rw [Function.update_self] at hpad
      cases hpad
      exact congrArg some hamount.symm
    · rw [Function.update_of_ne hc] at hpad
      rw [hs.amount c pad hpad]
      by_cases hw : c.worker = w
      · rw [hw, hamount]
      · rw [h.workers_ne hw]
  · rw [hpads] at hpad
    rw [hs.amount c pad hpad]
    by_cases hw : c.worker = w
    · have hidle : s.pc w ≠ .idle := by
        intro hidle
        have hlt := (hs.pads c).1 (by rw [hpad]; exact Option.some_ne_none _)
        have hcalls := hs.idle w hidle
        unfold State.pc at hidle
        simp [hw, launches, hidle, hcalls, Pc.launched] at hlt
      rw [hw, h.amount_eq hidle]
    · rw [h.workers_ne hw]

theorem handling_worker (h : WorkerStep s w a t) (hs : Wf s) (c : CallId) (v : JString)
    (hui : UiPc.handling t.ui = some (c, v)) : ∃ intent, t.pads c = some ⟨intent, .handling v⟩ := by
  rw [h.ui_eq] at hui
  obtain ⟨intent, hpad⟩ := hs.handling c v hui
  exact ⟨intent, h.pads_mono hs hpad⟩

theorem returned_worker (h : WorkerStep s w a t) (hs : Wf s) (c : CallId) :
    t.returned c ≠ none ↔ c.index < (t.workers c.worker).calls := by
  by_cases hw : c.worker = w
  · subst hw
    obtain ⟨v, -, -, hcalls, hret⟩ | ⟨hcalls, hret⟩ := h.returned_eq
    · rw [hcalls, hret]
      exact update_call_ne_none (hs.returned c) v
    · rw [hcalls, hret, hs.returned c]
  · obtain ⟨v, -, -, -, hret⟩ | ⟨-, hret⟩ := h.returned_eq
    · have hc : c ≠ s.call w := fun e => hw (congrArg CallId.worker e)
      rw [h.workers_ne hw, hret, Function.update_of_ne hc, hs.returned c]
    · rw [h.workers_ne hw, hret, hs.returned c]

theorem WorkerStep.returned_mono (h : WorkerStep s w a t) (hs : Wf s) {c : CallId}
    {v : JString} (hret : s.returned c = some v) : t.returned c = some v := by
  obtain ⟨v', -, -, -, hreturned⟩ | ⟨-, hreturned⟩ := h.returned_eq
  · have hc : c ≠ s.call w := by
      rintro rfl
      exact Nat.lt_irrefl _ ((hs.returned _).1 (by rw [hret]; exact Option.some_ne_none v))
    rwa [hreturned, Function.update_of_ne hc]
  · rwa [hreturned]

theorem compared_worker (h : WorkerStep s w a t) (hs : Wf s) (w' : Nat)
    (v : JString) (hpc : t.pc w' = .compare v) :
    ∃ k, (t.workers w').calls = k + 1 ∧ t.returned ⟨w', k⟩ = some v := by
  by_cases hw : w' = w
  · subst hw
    cases h with
    | ret hpc' hpin =>
      have hv := (pc_setWorker _).symm.trans hpc
      cases hv
      exact ⟨_, congrArg Worker.calls (workers_setWorker _), Function.update_self _ _ _⟩
    | wake hpc' => cases hpc'.symm.trans hpc
    | prompt | exhausted | rejected | accepted | reset | enter | launch | wait | resume | exit
    | matched | mismatched => simp [State.pc, State.setPc] at hpc
  · obtain ⟨k, hcalls, hret⟩ := hs.compared w' v (h.pc_ne hw ▸ hpc)
    exact ⟨k, by rw [h.workers_ne hw, hcalls], h.returned_mono hs hret⟩

theorem approved_worker (h : WorkerStep s w a t) (hs : Wf s) (w' : Nat)
    (hpc : t.pc w' = .done true) :
    ∃ k v, (t.workers w').calls = k + 1 ∧ t.returned ⟨w', k⟩ = some v := by
  by_cases hw : w' = w
  · subst hw
    cases h with
    | matched hpc' =>
      obtain ⟨k, hcalls, hret⟩ := hs.compared w' _ hpc'
      refine ⟨k, _, ?_, hret⟩
      simpa [State.setPc] using hcalls
    | wake hpc' => cases hpc'.symm.trans hpc
    | prompt | exhausted | rejected | accepted | reset | enter | launch | wait | resume | exit
    | ret | mismatched => simp [State.pc, State.setPc, State.setWorker] at hpc
  · obtain ⟨k, v, hcalls, hret⟩ := hs.approved w' (h.pc_ne hw ▸ hpc)
    exact ⟨k, v, by rw [h.workers_ne hw, hcalls], h.returned_mono hs hret⟩

theorem Wf.worker_step (hs : Wf s) (h : WorkerStep s w a t) : Wf t where
  guards := guards_worker h hs.guards
  waitSet := waitSet_worker h hs.waitSet
  idle := idle_worker h hs.idle
  pads := pads_worker h hs
  amount := amount_worker h hs
  handling := handling_worker h hs
  returned := returned_worker h hs
  compared := compared_worker h hs
  approved := approved_worker h hs

end Worker

section Ui

variable {sym : DecimalFormatSymbols} {s t : State} {a : UiAct}

theorem handling_ui (h : UiStep sym s a t) (hs : Wf s) (c : CallId) (v : JString)
    (hui : UiPc.handling t.ui = some (c, v)) : ∃ intent, t.pads c = some ⟨intent, .handling v⟩ := by
  cases h with
  | create h | click h | back h | deliverCanceled h =>
    cases (congrArg UiPc.handling h).symm.trans hui
  | deliverOk h hpad =>
    cases hui
    exact ⟨_, Function.update_self _ _ _⟩
  | write h => exact hs.handling c v (by rw [h]; exact hui)
  | enter h => exact hs.handling c v (by rw [h]; exact hui)
  | notify | exit => cases hui

theorem Wf.ui_step (hs : Wf s) (h : UiStep sym s a t) : Wf t where
  guards := guards_ui h hs.guards
  waitSet w hmem := by
    rw [State.pc, h.workers_eq]
    refine hs.waitSet w ?_
    cases h with
    | notify => cases hmem
    | _ => exact hmem
  idle w hpc := by
    rw [State.pc, h.workers_eq] at hpc
    rw [h.workers_eq]
    exact hs.idle w hpc
  pads c := by
    have hnone : t.pads c = none ↔ s.pads c = none := by
      rw [← Option.map_eq_none_iff, h.intent_eq c, Option.map_eq_none_iff]
    rw [h.workers_eq, ne_eq, hnone]
    exact hs.pads c
  amount c pad hpad := by
    have he := h.intent_eq c
    rw [hpad, Option.map_some, eq_comm, Option.map_eq_some_iff] at he
    obtain ⟨pad', hpad', hintent⟩ := he
    rw [h.workers_eq, ← hintent]
    exact hs.amount c pad' hpad'
  handling := handling_ui h hs
  returned c := by
    rw [h.workers_eq, h.returned_eq]
    exact hs.returned c
  compared w v hpc := by
    rw [State.pc, h.workers_eq] at hpc
    rw [h.workers_eq, h.returned_eq]
    exact hs.compared w v hpc
  approved w hpc := by
    rw [State.pc, h.workers_eq] at hpc
    rw [h.workers_eq, h.returned_eq]
    exact hs.approved w hpc

end Ui

theorem Wf.step {sym : DecimalFormatSymbols} {s t : State} (hs : Wf s) {a : Act}
    (h : step sym s a = some t) : Wf t := by
  cases a with
  | worker w a => exact hs.worker_step (workerStep_cases h)
  | ui a => exact hs.ui_step (uiStep_cases h)

theorem wf_run {sym : DecimalFormatSymbols} {acts : List Act} {s : State}
    (hrun : run (step sym) State.init acts = some s) : Wf s :=
  run_invariant (fun _ _ _ hs _ h => hs.step h) wf_init
    (along_of_forall (fun _ _ => trivial) acts State.init) hrun

/-- **Mutual exclusion** of the synchronized blocks. -/
theorem mutual_exclusion {sym : DecimalFormatSymbols} {acts : List Act} {s : State}
    (hrun : run (step sym) State.init acts = some s) {t u : Thread} (ht : inside s t)
    (hu : inside s u) : t = u :=
  (wf_run hrun).guards.unique ht hu

/-! ## A confirmed PIN stays -/

section Confirmed

variable {sym : DecimalFormatSymbols} {s t : State} {c : CallId} {v : JString}

theorem WorkerStep.confirmed {w : Nat} {a : WorkerAct} (h : WorkerStep s w a t) (hs : Wf s)
    (hc : s.confirmed c = some v) : t.confirmed c = some v := by
  obtain ⟨pad, hpad, hv⟩ := Option.bind_eq_some_iff.1 hc
  rw [State.confirmed, h.pads_mono hs hpad]
  exact hv

theorem confirmed_of_pads {intent : Intent} {f : Phase} (h : s.pads c = some ⟨intent, f⟩) :
    s.confirmed c = f.confirmed := by
  rw [State.confirmed, h]
  rfl

theorem UiStep.confirmed {a : UiAct} (h : UiStep sym s a t) (hs : Wf s)
    (hc : s.confirmed c = some v) : t.confirmed c = some v := by
  -- a pinpad that moves to another phase either had no PIN or keeps it
  have hmove : ∀ {c' intent f f'}, s.pads c' = some ⟨intent, f⟩ →
      t.pads = Function.update s.pads c' (some ⟨intent, f'⟩) →
      (f.confirmed = none ∨ f'.confirmed = f.confirmed) → t.confirmed c = some v := by
    intro c' intent f f' hpad hpads hf
    by_cases he : c = c'
    · subst he
      rw [confirmed_of_pads hpad] at hc
      rcases hf with hf | hf
      · cases hf.symm.trans hc
      · rw [confirmed_of_pads (by rw [hpads, Function.update_self]), hf, hc]
    · rwa [State.confirmed, hpads, Function.update_of_ne he]
  cases h with
  | create hui hpad | click hui hpad | back hui hpad | deliverCanceled hui hpad =>
    exact hmove hpad rfl (.inl rfl)
  | deliverOk hui hpad => exact hmove hpad rfl (.inr rfl)
  | notify hui howner hpad =>
    obtain ⟨intent, hpad'⟩ := hs.handling _ _ (congrArg UiPc.handling hui)
    cases hpad.symm.trans hpad'
    exact hmove hpad rfl (.inr rfl)
  | write | enter | exit => exact hc

end Confirmed

end Fclient.Verify
