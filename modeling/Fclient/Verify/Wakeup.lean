import Fclient.Verify.Pinpad
import Fclient.Verify.Session

/-!
# Waiting for a pinpad

A worker waits for the pinpad of its current call. Only an `OK` wakes it: `Outstanding` says that
there is still something that can, and it is kept by every step but the delivery of a
`RESULT_CANCELED` to a worker that waits for it (`outstanding_run`).
-/

namespace Fclient.Verify

open Base Native Client

/-! ## Outstanding pinpads -/

def Blocked (s : State) (w : Nat) : Prop := s.pc w = .wait ∨ .worker w ∈ s.monitor.waitSet

/-- The pinpad is open, or its result has yet to be delivered. -/
def Phase.outstanding : Phase → Bool
  | .handled _ => false
  | _ => true

def Outstanding (s : State) (c : CallId) : Prop :=
  ∃ pad, s.pads c = some pad ∧ Phase.outstanding pad.phase = true

def Canceled (s : State) (c : CallId) : Prop :=
  ∃ intent, s.pads c = some ⟨intent, .finished .canceled⟩

/-- Not the delivery of a `RESULT_CANCELED` for the pinpad that a worker is about to wait for, or
waits for. -/
def NotCanceled (s : State) : Act → Prop
  | .ui (.deliver c) => Canceled s c → ∀ w, s.call w = c → ¬ Blocked s w
  | _ => True

/-- Who is about to wait, or waits, does so for an outstanding pinpad. -/
def Awaited (s : State) : Prop := ∀ w, Blocked s w → Outstanding s (s.call w)

section Step

variable {sym : DecimalFormatSymbols} {s t : State} {w : Nat}

theorem Wf.not_blocked (hs : Wf s) (hwait : s.pc w ≠ .wait) (hwaiting : s.pc w ≠ .waiting) :
    ¬ Blocked s w := by
  rintro (h | h)
  · exact hwait h
  · exact hwaiting (hs.waitSet w h)

theorem WorkerStep.blocked_ne {a : WorkerAct} (h : WorkerStep s w a t) {w' : Nat} (hne : w' ≠ w)
    (hb : Blocked t w') : Blocked s w' :=
  hb.imp (h.pc_ne hne ▸ ·) (h.mem_waitSet hne)

/-- A worker becomes blocked by its launch, and stays so at its `wait`. -/
theorem WorkerStep.blocked_self {a : WorkerAct} (h : WorkerStep s w a t) (hs : Wf s)
    (hb : Blocked t w) : t.call w = s.call w ∧
      ((∃ intent, t.pads (s.call w) = some ⟨intent, .starting⟩) ∨
        Blocked s w ∧ t.pads = s.pads) := by
  cases h with
  | launch hpc =>
    refine ⟨?_, .inl ⟨_, Function.update_self _ _ _⟩⟩
    simp [State.call, State.setPc, State.setPad]
  | wait hpc => exact ⟨by simp [State.call, State.setPc], .inr ⟨.inl hpc, rfl⟩⟩
  | wake hpc hmem =>
    rcases hb with hb | hb
    · cases hpc.symm.trans hb
    · simp at hb
  | resume hpc hout =>
    rcases hb with hb | hb
    · simp [State.pc, State.setPc] at hb
    · exact absurd hb hout
  | rejected hpc | accepted hpc | prompt hpc | exhausted hpc | reset hpc | enter hpc | exit hpc
  | ret hpc | matched hpc | mismatched hpc =>
    rcases hb with hb | hb
    · simp [State.pc, State.setPc] at hb
    · cases hpc.symm.trans (hs.waitSet w hb)

theorem awaited_worker {a : WorkerAct} (h : WorkerStep s w a t) (hs : Wf s) (ha : Awaited s) :
    Awaited t := by
  intro w' hb
  by_cases hw : w' = w
  · subst hw
    obtain ⟨hcall, ⟨intent, hpad⟩ | ⟨hb, hpads⟩⟩ := h.blocked_self hs hb
    · exact ⟨_, hcall ▸ hpad, rfl⟩
    · rw [hcall, Outstanding, hpads]
      exact ha w' hb
  · rw [h.call_ne hw, Outstanding, h.pads_ne hw]
    exact ha w' (h.blocked_ne hw hb)

/-- While the UI thread executes `notifyAll`, nobody is between its launch and its `wait`. -/
theorem Wf.not_wait (hs : Wf s) (howner : s.monitor.owner = some .ui) : s.pc w ≠ .wait := by
  intro hpc
  have hin : inside s (.worker w) := by
    rw [inside, hpc]
    rfl
  have h := hs.guards _ hin
  rw [howner] at h
  cases h

theorem UiStep.blocked {a : UiAct} (h : UiStep sym s a t) (hb : Blocked t w) : Blocked s w := by
  rw [Blocked, State.pc, h.workers_eq] at hb
  refine hb.imp id fun hmem => ?_
  cases h with
  | notify => cases hmem
  | _ => exact hmem

theorem UiStep.call_eq {a : UiAct} (h : UiStep sym s a t) : t.call w = s.call w := by
  rw [State.call, h.workers_eq]
  rfl

theorem awaited_ui {a : UiAct} (h : UiStep sym s a t) (hs : Wf s) (hok : NotCanceled s (.ui a))
    (ha : Awaited s) : Awaited t := by
  intro w hb
  have hb' := h.blocked hb
  have hout := ha w hb'
  rw [h.call_eq]
  -- the pinpad of the worker moves to a phase before the end of `onActivityResult`, if at all
  have hmove : ∀ {c intent f}, t.pads = Function.update s.pads c (some ⟨intent, f⟩) →
      (s.call w = c → Phase.outstanding f = true) → Outstanding t (s.call w) := by
    intro c intent f hpads hf
    by_cases hc : s.call w = c
    · exact ⟨⟨intent, f⟩, by rw [hpads, hc, Function.update_self], hf hc⟩
    · rwa [Outstanding, hpads, Function.update_of_ne hc]
  cases h with
  | create | back | deliverOk => exact hmove rfl fun _ => rfl
  | @click c k intent p p' hui hpad hclick =>
    refine hmove rfl fun _ => ?_
    unfold Phase.ofPinpad
    cases p'.result <;> rfl
  | deliverCanceled hui hpad => exact hmove rfl fun hc => absurd hb' (hok ⟨_, hpad⟩ w hc)
  | write | enter | exit => exact hout
  | notify hui howner hpad =>
    rcases hb with hb | hb
    · exact absurd hb (hs.not_wait howner)
    · cases hb

end Step

theorem awaited_step {sym : DecimalFormatSymbols} {s t : State} {a : Act} (hs : Wf s)
    (hok : NotCanceled s a) (ha : Awaited s) (h : step sym s a = some t) : Awaited t := by
  cases a with
  | worker w a => exact awaited_worker (workerStep_cases h) hs ha
  | ui a => exact awaited_ui (uiStep_cases h) hs hok ha

/-- The delivery of a `RESULT_CANCELED` to a worker that waits for it leaves nothing to wait for. -/
theorem not_awaited_of_canceled {sym : DecimalFormatSymbols} {s t : State} {w : Nat}
    (hc : Canceled s (s.call w)) (hb : Blocked s w)
    (h : step sym s (.ui (.deliver (s.call w))) = some t) : ¬ Awaited t := by
  obtain ⟨intent, hpad⟩ := hc
  intro ha
  cases uiStep_cases h with
  | deliverOk hui hpad' => cases hpad.symm.trans hpad'
  | deliverCanceled hui hpad' =>
    obtain ⟨pad, hpad, hout⟩ := ha w hb
    cases (Function.update_self _ _ _).symm.trans hpad
    cases hout

theorem awaited_step_iff {sym : DecimalFormatSymbols} {s t : State} {a : Act} (hs : Wf s)
    (ha : Awaited s) (h : step sym s a = some t) : Awaited t ↔ NotCanceled s a := by
  constructor
  · intro ht
    cases a with
    | worker w a => trivial
    | ui a =>
      cases a with
      | deliver c =>
        rintro hc w rfl hb
        exact not_awaited_of_canceled hc hb h ht
      | _ => trivial
  · exact fun hok => awaited_step hs hok ha h

theorem awaited_init : Awaited State.init := by
  rintro w (h | h)
  · cases h
  · cases h

/-- **No worker waits for a closed pinpad** unless a `RESULT_CANCELED` was delivered to a worker
that waited for it, or was about to. -/
theorem outstanding_run (sym : DecimalFormatSymbols) {acts : List Act} {s : State}
    (hok : Along (step sym) NotCanceled State.init acts)
    (hrun : run (step sym) State.init acts = some s) (w : Nat)
    (hw : .worker w ∈ s.monitor.waitSet) : Outstanding s (s.call w) := by
  have hinv : Wf s ∧ Awaited s :=
    run_invariant (I := fun s => Wf s ∧ Awaited s)
      (fun _ _ _ hs hok h => ⟨hs.1.step h, awaited_step hs.1 hok hs.2 h⟩)
      ⟨wf_init, awaited_init⟩ hok hrun
  exact hinv.2 w (.inr hw)

/-- A worker up to its first wait; its pinpad opens with the keys in order. -/
def promptRun (w : Nat) (trd : JByteArray) : List Act :=
  [.worker w (.start trd fun _ => 0), .worker w .loop, .worker w .reset, .worker w .enter,
    .worker w .launch, .worker w .wait, .ui (.create ⟨w, 0⟩ fun i => Int8.ofNat i)]

theorem outstanding_prompt : ∃ s, run (step symbolsEn) State.init (promptRun 0 rouble) = some s ∧
    .worker 0 ∈ s.monitor.waitSet ∧ Outstanding s (s.call 0) := by
  have hwait : (run (step symbolsEn) State.init (promptRun 0 rouble)).map
      (fun s => s.monitor.waitSet) = some [.worker 0] := by decide +kernel
  obtain ⟨s, hrun, hmem⟩ := Option.map_eq_some_iff.1 hwait
  have hmem : .worker 0 ∈ s.monitor.waitSet := hmem ▸ List.mem_singleton_self _
  have hok : ∀ a ∈ promptRun 0 rouble, ∀ s, NotCanceled s a := by
    simp only [promptRun, List.forall_mem_cons, List.not_mem_nil, false_imp_iff, implies_true,
      NotCanceled, and_self]
  exact ⟨s, hrun, hmem, outstanding_run symbolsEn
    ((along_of_mem hok State.init).mono fun s a h => h s) hrun 0 hmem⟩

/-- The user leaves the pinpad by back: the worker stays in the wait set, with nothing to come. -/
theorem not_outstanding_back : ∃ s, run (step symbolsEn) State.init
    (promptRun 0 rouble ++ [.ui (.back ⟨0, 0⟩), .ui (.deliver ⟨0, 0⟩)]) = some s ∧
      .worker 0 ∈ s.monitor.waitSet ∧ ¬ Outstanding s (s.call 0) := by
  have hstuck : (run (step symbolsEn) State.init
      (promptRun 0 rouble ++ [.ui (.back ⟨0, 0⟩), .ui (.deliver ⟨0, 0⟩)])).map
        (fun s => (s.monitor.waitSet, (s.pads (s.call 0)).map fun pad =>
          Phase.outstanding pad.phase)) = some ([.worker 0], some false) := by decide +kernel
  obtain ⟨s, hrun, hs⟩ := Option.map_eq_some_iff.1 hstuck
  obtain ⟨hmem, hpad⟩ := Prod.mk.inj hs
  refine ⟨s, hrun, hmem ▸ List.mem_singleton_self _, ?_⟩
  rintro ⟨pad, hsome, hout⟩
  rw [hsome, Option.map_some, hout] at hpad
  cases hpad

end Fclient.Verify
