import Fclient.Verify.Wakeup

/-!
# One transaction after the other

The field that all calls share does no harm as long as transactions do not overlap. When each is
started only while no other is in progress, and no wakeup is spurious, `onActivityResult` always
runs for the call that waits (`SerialInv.handling_call`), and a call returns what was confirmed in
its own pinpad (`SerialInv.confirmed_of_returned`). Pinpads may be left by back: the transaction
then stays in progress for ever, so that no other is started after it.
-/

namespace Fclient.Verify

open Base Native Client

/-- The worker has been started, and has neither rejected its record nor reported a result. -/
def Pc.busy : Pc → Bool
  | .idle | .rejected | .done _ => false
  | _ => true

/-- A transaction is only started while no other is in progress, and no wakeup is spurious. One
whose pinpad was left by back never stops being in progress. -/
def Serial (s : State) : Act → Prop
  | .worker w (.start _ _) => ∀ w', w' ≠ w → Pc.busy (s.pc w') = false
  | .worker _ .wake => False
  | _ => True

structure SerialInv (s : State) : Prop where
  wf : Wf s
  one : ∀ w w', Pc.busy (s.pc w) = true → Pc.busy (s.pc w') = true → w = w'
  pin : ∀ c v, s.ui = .enter c v ∨ s.ui = .notify c v → s.pin = some v
  past : ∀ c v, s.returned c = some v → ∃ intent, s.pads c = some ⟨intent, .handled (.ok v)⟩
  current : ∀ w, Pc.launched (s.pc w) = true → ¬ Blocked s w →
    ∃ intent v, s.pads (s.call w) = some ⟨intent, .handled (.ok v)⟩ ∧ s.pin = some v

theorem serialInv_init : SerialInv State.init where
  wf := wf_init
  one _ _ h := by cases h
  pin _ _ h := by rcases h with h | h <;> cases h
  past _ _ h := by cases h
  current _ h := by cases h

theorem Pc.busy_of_launched {pc : Pc} (h : Pc.launched pc = true) : Pc.busy pc = true := by
  cases pc with
  | wait | waiting | exit | ret => rfl
  | _ => cases h

section Step

variable {sym : DecimalFormatSymbols} {s t : State} {w : Nat}

/-- Every pinpad is one that its worker has returned from, or the one of its current call. -/
theorem Wf.pad_call (hs : Wf s) {c : CallId} {pad : Pad} (hpad : s.pads c = some pad) :
    s.returned c ≠ none ∨ c = s.call c.worker ∧ Pc.launched (s.pc c.worker) = true := by
  have hlt := (hs.pads c).1 (by rw [hpad]; exact Option.some_ne_none _)
  by_cases hret : c.index < (s.workers c.worker).calls
  · exact .inl ((hs.returned c).2 hret)
  · right
    unfold launches at hlt
    cases hl : Pc.launched (s.workers c.worker).pc with
    | false =>
      rw [hl] at hlt
      exact absurd hlt hret
    | true =>
      rw [hl] at hlt
      have hidx : c.index = (s.workers c.worker).calls := by
        simp only [Bool.toNat_true] at hlt
        omega
      exact ⟨by rw [State.call, ← hidx], hl⟩

theorem UiStep.handled_mono {a : UiAct} (h : UiStep sym s a t) (hs : Wf s) {c : CallId}
    {intent : Intent} {r : ActivityResult} (hpad : s.pads c = some ⟨intent, .handled r⟩) :
    t.pads c = some ⟨intent, .handled r⟩ := by
  have hmove : ∀ {c' intent' f f'}, s.pads c' = some ⟨intent', f⟩ →
      t.pads = Function.update s.pads c' (some f') → Phase.outstanding f = true →
      t.pads c = some ⟨intent, .handled r⟩ := by
    intro c' intent' f f' hpad' hpads hf
    have hc : c ≠ c' := by
      rintro rfl
      cases hpad.symm.trans hpad'
      exact Bool.false_ne_true hf
    rwa [hpads, Function.update_of_ne hc]
  cases h with
  | create hui hpad' | click hui hpad' | back hui hpad' | deliverOk hui hpad'
  | deliverCanceled hui hpad' => exact hmove hpad' rfl rfl
  | notify hui howner hpad' =>
    obtain ⟨intent', hpad''⟩ := hs.handling _ _ (congrArg UiPc.handling hui)
    exact hmove hpad'' rfl rfl
  | write | enter | exit => exact hpad

/-- Once it is out of the wait set, a worker only moves on to its `return`. -/
theorem WorkerStep.launched_self {a : WorkerAct} (h : WorkerStep s w a t) (hwake : a ≠ .wake)
    (hs : Wf s) (hl : Pc.launched (t.pc w) = true) (hb : ¬ Blocked t w) :
    Pc.launched (s.pc w) = true ∧ ¬ Blocked s w ∧ t.pads = s.pads ∧ t.pin = s.pin ∧
      t.call w = s.call w := by
  cases h with
  | launch => exact absurd (.inl (pc_setPc _)) hb
  | wait => exact absurd (.inr List.mem_cons_self) hb
  | wake => exact absurd rfl hwake
  | resume hpc hout =>
    refine ⟨by rw [hpc]; rfl, ?_, rfl, rfl, by simp [State.call, State.setPc]⟩
    rintro (hb | hb)
    · cases hpc.symm.trans hb
    · exact hout hb
  | exit hpc =>
    exact ⟨by rw [hpc]; rfl, hs.not_blocked (by simp [hpc]) (by simp [hpc]), rfl, rfl,
      by simp [State.call, State.setPc]⟩
  | prompt | exhausted | rejected | accepted | reset | enter | ret | matched | mismatched =>
    simp [State.pc, State.setPc, State.setWorker, Pc.launched] at hl

theorem Wf.busy_of_blocked (hs : Wf s) (h : Blocked s w) : Pc.busy (s.pc w) = true := by
  rcases h with h | h
  · rw [h]
    rfl
  · rw [hs.waitSet w h]
    rfl

/-- `onActivityResult` runs for the pinpad that its worker waits for. -/
theorem SerialInv.handling_call (hs : SerialInv s) {c : CallId} {v : JString}
    (hui : UiPc.handling s.ui = some (c, v)) : c = s.call c.worker ∧ Blocked s c.worker := by
  obtain ⟨intent, hpad⟩ := hs.wf.handling c v hui
  rcases hs.wf.pad_call hpad with hret | ⟨hc, hl⟩
  · obtain ⟨v', hret⟩ := Option.ne_none_iff_exists'.1 hret
    obtain ⟨intent', hpad'⟩ := hs.past c v' hret
    cases hpad.symm.trans hpad'
  · refine ⟨hc, ?_⟩
    by_contra hb
    obtain ⟨intent', v', hpad', -⟩ := hs.current c.worker hl hb
    rw [← hc] at hpad'
    cases hpad.symm.trans hpad'

/-- While a worker takes a step, no other one is in progress. -/
theorem SerialInv.alone (hs : SerialInv s) {a : WorkerAct} (h : WorkerStep s w a t)
    (hserial : Serial s (.worker w a)) {w' : Nat} (hne : w' ≠ w) : Pc.busy (s.pc w') = false := by
  have hother : Pc.busy (s.pc w) = true → Pc.busy (s.pc w') = false := by
    intro hw
    rw [← Bool.not_eq_true]
    intro hw'
    exact hne (hs.one w' w hw' hw)
  cases h with
  | rejected | accepted => exact hserial w' hne
  | prompt hpc | exhausted hpc | reset hpc | enter hpc | launch hpc | wait hpc | wake hpc
  | resume hpc | exit hpc | ret hpc | matched hpc | mismatched hpc =>
    apply hother
    rw [hpc]
    rfl

/-- After a step of a worker it is the only one that can be in progress. -/
theorem SerialInv.eq_of_busy (hs : SerialInv s) {a : WorkerAct} (h : WorkerStep s w a t)
    (hserial : Serial s (.worker w a)) {w' : Nat} (hb : Pc.busy (t.pc w') = true) : w' = w := by
  by_contra hne
  rw [h.pc_ne hne, hs.alone h hserial hne] at hb
  cases hb

theorem Serial.ne_wake {a : WorkerAct} (h : Serial s (.worker w a)) : a ≠ .wake := by
  rintro rfl
  exact h

theorem SerialInv.worker_step {a : WorkerAct} (hs : SerialInv s) (h : WorkerStep s w a t)
    (hserial : Serial s (.worker w a)) : SerialInv t where
  wf := hs.wf.worker_step h
  one w₁ w₂ h₁ h₂ := (hs.eq_of_busy h hserial h₁).trans (hs.eq_of_busy h hserial h₂).symm
  pin c v hui := by
    rw [h.ui_eq] at hui
    rcases h.pin_eq with hpin | ⟨hpc, -⟩
    · rw [hpin]
      exact hs.pin c v hui
    -- nobody is at its reset while `onActivityResult` runs
    · have hhandling : UiPc.handling s.ui = some (c, v) := by
        rcases hui with e | e <;> rw [e] <;> rfl
      obtain ⟨-, hb⟩ := hs.handling_call hhandling
      have hw : c.worker = w := hs.one _ _ (hs.wf.busy_of_blocked hb) (by rw [hpc]; rfl)
      rw [hw] at hb
      exact absurd hb (hs.wf.not_blocked (by simp [hpc]) (by simp [hpc]))
  past c v hret := by
    obtain ⟨v', hpc, hpin, -, hreturned⟩ | ⟨-, hreturned⟩ := h.returned_eq
    · rw [hreturned] at hret
      by_cases hc : c = s.call w
      · subst hc
        rw [Function.update_self] at hret
        cases hret
        have hb : ¬ Blocked s w := hs.wf.not_blocked (by simp [hpc]) (by simp [hpc])
        obtain ⟨intent, v', hpad, hpin'⟩ := hs.current w (by rw [hpc]; rfl) hb
        cases hpin.symm.trans hpin'
        exact ⟨intent, h.pads_mono hs.wf hpad⟩
      · rw [Function.update_of_ne hc] at hret
        obtain ⟨intent, hpad⟩ := hs.past c v hret
        exact ⟨intent, h.pads_mono hs.wf hpad⟩
    · obtain ⟨intent, hpad⟩ := hs.past c v (hreturned ▸ hret)
      exact ⟨intent, h.pads_mono hs.wf hpad⟩
  current w' hl hb := by
    obtain rfl := hs.eq_of_busy h hserial (Pc.busy_of_launched hl)
    obtain ⟨hl, hb, hpads, hpin, hcall⟩ := h.launched_self hserial.ne_wake hs.wf hl hb
    rw [hcall, hpads, hpin]
    exact hs.current w' hl hb

theorem SerialInv.ui_step {a : UiAct} (hs : SerialInv s) (h : UiStep sym s a t) : SerialInv t where
  wf := hs.wf.ui_step h
  one w w' hw hw' := by
    rw [State.pc, h.workers_eq] at hw hw'
    exact hs.one w w' hw hw'
  pin c v hui := by
    cases h with
    | create e | click e | back e | deliverCanceled e =>
      rcases hui with hui | hui <;> cases e.symm.trans hui
    | deliverOk | notify | exit => rcases hui with hui | hui <;> cases hui
    | write e =>
      rcases hui with hui | hui <;> cases hui
      rfl
    | enter e =>
      rcases hui with hui | hui <;> cases hui
      exact hs.pin c v (.inl e)
  past c v hret := by
    obtain ⟨intent, hpad⟩ := hs.past c v (h.returned_eq ▸ hret)
    exact ⟨intent, h.handled_mono hs.wf hpad⟩
  current w hl hb := by
    rw [State.pc, h.workers_eq] at hl
    rw [h.call_eq]
    -- the worker that `onActivityResult` runs for is the only one in progress
    have hown : ∀ {c v}, UiPc.handling s.ui = some (c, v) → c = s.call w ∧ Blocked s w := by
      intro c v hui
      obtain ⟨hc, hb⟩ := hs.handling_call hui
      have hw := hs.one _ _ (hs.wf.busy_of_blocked hb) (Pc.busy_of_launched hl)
      rw [hw] at hc hb
      exact ⟨hc, hb⟩
    by_cases hb' : Blocked s w
    · cases h with
      | notify hui howner hpad =>
        obtain ⟨rfl, -⟩ := hown (congrArg UiPc.handling hui)
        exact ⟨_, _, Function.update_self _ _ _, hs.pin _ _ (.inr hui)⟩
      | _ => exact absurd hb' hb
    · obtain ⟨intent, v, hpad, hpin⟩ := hs.current w hl hb'
      refine ⟨intent, v, h.handled_mono hs.wf hpad, ?_⟩
      cases h with
      | write hui => exact absurd (hown (congrArg UiPc.handling hui)).2 hb'
      | _ => exact hpin

theorem SerialInv.step {a : Act} (hs : SerialInv s) (hserial : Serial s a)
    (h : step sym s a = some t) : SerialInv t := by
  cases a with
  | worker w a => exact hs.worker_step (workerStep_cases h) hserial
  | ui a => exact hs.ui_step (uiStep_cases h)

theorem serialInv_run {acts : List Act} (hserial : Along (Client.step sym) Serial State.init acts)
    (hrun : run (Client.step sym) State.init acts = some s) : SerialInv s := by
  refine run_invariant ?_ serialInv_init hserial hrun
  intro s a t hs hserial h
  exact hs.step hserial h

/-- A call only returns what was confirmed in the pinpad that it launched. -/
theorem SerialInv.confirmed_of_returned (hs : SerialInv s) {c : CallId} {v : JString}
    (hret : s.returned c = some v) : s.confirmed c = some v := by
  obtain ⟨intent, hpad⟩ := hs.past c v hret
  exact confirmed_of_pads hpad

end Step

end Fclient.Verify
