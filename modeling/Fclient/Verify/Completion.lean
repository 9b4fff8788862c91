import Fclient.Verify.Grammar
import Fclient.Verify.Refinement
import Fclient.Verify.Termination

/-!
# A single transaction can always be finished

With one worker, every pinpad left by `OK` and no spurious wakeups, the user never gets stuck: from
every reachable state on, opening the pinpad, one `OK` and the delivery of its result are enough to
let the threads go on, until the transaction reports its result (`can_finish`).
-/

namespace Fclient.Verify

open Base Native Client

/-! ## What the user and the system have to do -/

/-- How far the pinpad is from the delivery of its result. -/
def stage : Option Pad → Nat
  | some ⟨_, .starting⟩ => 7
  | some ⟨_, .shown _⟩ => 6
  | some ⟨_, .finished _⟩ => 5
  | _ => 0

theorem stage_le (pad : Option Pad) : stage pad ≤ 7 := by
  unfold stage
  split <;> decide

/-- What is left of the transaction: the statements of the worker, the pinpad of its current call
and `onActivityResult`. -/
def distance (w₀ : Nat) (s : State) : Nat :=
  12 * remaining s w₀ + stage (s.pads (s.call w₀)) + uiRemaining s.ui

/-- The worker has accepted its record, and its pinpads open. -/
structure Ready (w₀ : Nat) (s : State) : Prop where
  solo : SoloInv w₀ s
  live : Live s
  handling : ∀ c intent v, s.pads c = some ⟨intent, .handling v⟩ →
    UiPc.handling s.ui = some (c, v)
  started : s.pc w₀ ≠ .idle ∧ s.pc w₀ ≠ .rejected
  amount : ∃ f, longValueOf (s.workers w₀).amount = .ok f

section Step

variable {sym : DecimalFormatSymbols} {s t : State} {w₀ : Nat}

theorem ofPinpad_ne_handling (p : PinpadActivity) (v : JString) :
    Phase.ofPinpad p ≠ .handling v := by
  unfold Phase.ofPinpad
  cases p.result <;> exact Phase.noConfusion

theorem WorkerStep.handling_pad {w : Nat} {a : WorkerAct} (h : WorkerStep s w a t)
    (hs : ∀ c intent v, s.pads c = some ⟨intent, .handling v⟩ → UiPc.handling s.ui = some (c, v))
    (c : CallId) (intent : Intent) (v : JString) (hpad : t.pads c = some ⟨intent, .handling v⟩) :
    UiPc.handling t.ui = some (c, v) := by
  rw [h.ui_eq]
  obtain ⟨-, -, -, ptc, hpads⟩ | ⟨-, hpads⟩ := h.pads_eq
  · rw [hpads] at hpad
    by_cases hc : c = s.call w
    · rw [hc, Function.update_self] at hpad
      cases hpad
    · rw [Function.update_of_ne hc] at hpad
      exact hs c intent v hpad
  · exact hs c intent v (hpads ▸ hpad)

theorem UiStep.handling_pad {a : UiAct} (h : UiStep sym s a t)
    (hs : ∀ c intent v, s.pads c = some ⟨intent, .handling v⟩ → UiPc.handling s.ui = some (c, v))
    (c : CallId) (intent : Intent) (v : JString) (hpad : t.pads c = some ⟨intent, .handling v⟩) :
    UiPc.handling t.ui = some (c, v) := by
  have hmove : ∀ {c' intent' f'}, t.pads = Function.update s.pads c' (some ⟨intent', f'⟩) →
      c = c' ∧ f' = .handling v ∨ c ≠ c' ∧ UiPc.handling s.ui = some (c, v) := by
    intro c' intent' f' hpads
    rw [hpads] at hpad
    by_cases hc : c = c'
    · rw [hc, Function.update_self] at hpad
      cases hpad
      exact .inl ⟨hc, rfl⟩
    · rw [Function.update_of_ne hc] at hpad
      exact .inr ⟨hc, hs c intent v hpad⟩
  cases h with
  | create hui | back hui | deliverCanceled hui =>
    rcases hmove rfl with ⟨-, hf⟩ | ⟨-, hold⟩
    · cases hf
    · exact hold
  | click hui =>
    rcases hmove rfl with ⟨-, hf⟩ | ⟨-, hold⟩
    · exact absurd hf (ofPinpad_ne_handling _ v)
    · exact hold
  | deliverOk hui =>
    rcases hmove rfl with ⟨rfl, hf⟩ | ⟨-, hold⟩
    · cases hf
      rfl
    · cases (congrArg UiPc.handling hui).symm.trans hold
  | notify hui =>
    rcases hmove rfl with ⟨-, hf⟩ | ⟨hne, hold⟩
    · cases hf
    · cases (congrArg UiPc.handling hui).symm.trans hold
      exact absurd rfl hne
  | write hui | enter hui => exact (congrArg UiPc.handling hui).symm.trans (hs c intent v hpad)
  | exit hui => exact (congrArg UiPc.handling hui).symm.trans (hs c intent v hpad)

theorem WorkerStep.started {w : Nat} {a : WorkerAct} (h : WorkerStep s w a t)
    (hs : s.pc w₀ ≠ .idle ∧ s.pc w₀ ≠ .rejected) : t.pc w₀ ≠ .idle ∧ t.pc w₀ ≠ .rejected := by
  by_cases hw : w₀ = w
  · subst hw
    cases h with
    | rejected hpc | accepted hpc => exact absurd hpc hs.1
    | wake => exact hs
    | prompt | exhausted | reset | enter | launch | wait | resume | exit | ret | matched
    | mismatched => simp [State.pc, State.setPc, State.setWorker]
  · rw [h.pc_ne hw]
    exact hs

theorem Ready.step {a : Act} (hs : Ready w₀ s) (hsolo : Solo w₀ a)
    (h : step sym s a = some t) : Ready w₀ t where
  solo := hs.solo.step hsolo h
  live := hs.live.step h
  handling := by
    cases a with
    | worker w a => exact (workerStep_cases h).handling_pad hs.handling
    | ui a => exact (uiStep_cases h).handling_pad hs.handling
  started := by
    cases a with
    | worker w a => exact (workerStep_cases h).started hs.started
    | ui a =>
      rw [State.pc, (uiStep_cases h).workers_eq]
      exact hs.started
  amount := by
    cases a with
    | worker w a =>
      have hw := workerStep_cases h
      by_cases he : w₀ = w
      · subst he
        rw [hw.amount_eq hs.started.1]
        exact hs.amount
      · rw [hw.workers_ne he]
        exact hs.amount
    | ui a =>
      rw [(uiStep_cases h).workers_eq]
      exact hs.amount

/-! ## Getting closer -/

/-- Only the worker itself and the UI thread act on their own. -/
theorem Ready.solo_of_internal {a : Act} (hs : Ready w₀ s) (ha : Internal a)
    (h : Client.step sym s a = some t) : Solo w₀ a := by
  cases a with
  | worker w a =>
    have hw : w = w₀ := by
      by_contra hw
      exact ha.not_idle (workerStep_cases h) (hs.solo.alone w hw)
    cases a with
    | wake => exact ha
    | _ => exact hw
  | ui a =>
    cases a with
    | back => exact ha
    | _ => trivial

theorem WorkerStep.distance_lt {a : WorkerAct} (h : WorkerStep s w₀ a t) :
    distance w₀ t < distance w₀ s := by
  have hlt := h.remaining_lt
  have hstage := stage_le (t.pads (t.call w₀))
  unfold distance
  rw [h.ui_eq]
  omega

theorem Ready.distance_of_internal {a : Act} (hs : Ready w₀ s) (ha : Internal a)
    (h : Client.step sym s a = some t) : distance w₀ t < distance w₀ s := by
  cases a with
  | worker w a =>
    have hstep := workerStep_cases h
    have hw : w = w₀ := by
      by_contra hw
      exact ha.not_idle hstep (hs.solo.alone w hw)
    subst hw
    exact hstep.distance_lt
  | ui a =>
    have hu := uiStep_cases h
    have hremaining := hu.remaining w₀
    have hui := ha.uiRemaining hu
    have hpads : stage (t.pads (t.call w₀)) ≤ stage (s.pads (s.call w₀)) := by
      rw [hu.call_eq]
      cases hu with
      | create | click | back | deliverOk | deliverCanceled => exact ha.elim
      | write | enter | exit => exact Nat.le_refl _
      | notify hui' =>
        obtain rfl := hs.solo.call_of_handling (congrArg UiPc.handling hui')
        refine Nat.le_trans (Nat.le_of_eq ?_) (Nat.zero_le _)
        exact congrArg stage (Function.update_self (s.call w₀) _ s.pads)
    unfold distance
    omega

/-- Moving the current pinpad is all that the step does, or it starts `onActivityResult`. -/
theorem distance_lt_of_pad {intent : Intent} {f f' : Phase}
    (hpad : s.pads (s.call w₀) = some ⟨intent, f⟩) (hworkers : t.workers = s.workers)
    (hmonitor : t.monitor = s.monitor)
    (hpads : t.pads = Function.update s.pads (s.call w₀) (some ⟨intent, f'⟩))
    (hlt : stage (some ⟨intent, f'⟩) + uiRemaining t.ui <
      stage (some ⟨intent, f⟩) + uiRemaining s.ui) : distance w₀ t < distance w₀ s := by
  have hremaining : remaining t w₀ = remaining s w₀ := by
    unfold remaining
    rw [hworkers, hmonitor]
  have hcall : t.call w₀ = s.call w₀ := by
    rw [State.call, hworkers]
    rfl
  unfold distance
  rw [hremaining, hcall, hpads, Function.update_self, hpad]
  omega

/-- While everything rests, the pinpad that the worker waits for is open, or the system can bring it
a stage further. -/
theorem Ready.quiet_cases (hs : Ready w₀ s) (hquiet : Quiet s)
    (hrunning : ∀ r, s.pc w₀ ≠ .done r) :
    (∃ intent p, s.pads (s.call w₀) = some ⟨intent, .shown p⟩) ∨
    ∃ a t, (∀ c k, a ≠ .click c k) ∧ Solo w₀ (.ui a) ∧ Client.step sym s (.ui a) = some t ∧
      distance w₀ t < distance w₀ s := by
  obtain ⟨hui, hrest⟩ := hquiet
  have hmem : .worker w₀ ∈ s.monitor.waitSet := by
    rcases hrest w₀ with h | h | ⟨r, h⟩ | h
    · exact absurd h hs.started.1
    · exact absurd h hs.started.2
    · exact absurd h (hrunning r)
    · exact h
  obtain ⟨⟨intent, f⟩, hpad, hout⟩ := hs.solo.awaited w₀ (.inr hmem)
  cases f with
  | starting =>
    obtain ⟨n, hn⟩ := hs.amount
    have hamount : intent.amount = some (s.workers w₀).amount := hs.solo.wf.amount _ _ hpad
    obtain ⟨p, hp, -⟩ := onCreate_of_longValueOf sym (fun _ => 0) intent
      (by rw [hamount, Option.getD_some, hn])
    refine .inr ⟨.create (s.call w₀) fun _ => 0, s.setPad (s.call w₀) ⟨intent, .shown p⟩,
      fun _ _ => UiAct.noConfusion, trivial, ?_, distance_lt_of_pad hpad rfl rfl rfl ?_⟩
    · simp only [Client.step, uiStep, hui, hpad, hp, Except.toOption, Option.map_some]
    · exact Nat.add_lt_add_right (Nat.lt_succ_self 6) _
  | shown p => exact .inl ⟨intent, p, hpad⟩
  | finished r =>
    cases r with
    | canceled => exact absurd rfl (hs.solo.uncanceled _ _ _ hpad)
    | ok v =>
      refine .inr ⟨.deliver (s.call w₀), { s.setPad (s.call w₀) ⟨intent, .handling v⟩ with
        ui := .write (s.call w₀) v }, fun _ _ => UiAct.noConfusion, trivial, ?_,
        distance_lt_of_pad hpad rfl rfl rfl ?_⟩
      · simp only [Client.step, uiStep, hui, hpad]
      · rw [hui]
        exact Nat.lt_succ_self 4
  | handling v =>
    have hhandling := hs.handling _ _ _ hpad
    rw [hui] at hhandling
    cases hhandling
  | handled r => cases hout

/-- An `OK` on the open pinpad brings it a stage further. -/
theorem Ready.next_of_quiet (hs : Ready w₀ s) (hquiet : Quiet s)
    (hrunning : ∀ r, s.pc w₀ ≠ .done r) :
    ∃ a t, Solo w₀ a ∧ Client.step sym s a = some t ∧ distance w₀ t < distance w₀ s := by
  rcases @Ready.quiet_cases sym s w₀ hs hquiet hrunning with
    ⟨intent, p, hpad⟩ | ⟨a, t, -, hsolo, h, hlt⟩
  · refine ⟨.ui (.click (s.call w₀) .ok), s.setPad (s.call w₀) ⟨intent, .finished (.ok p.pin)⟩,
      trivial, ?_, distance_lt_of_pad hpad rfl rfl rfl ?_⟩
    · simp only [Client.step, uiStep, hquiet.1, hpad]
      rfl
    · exact Nat.add_lt_add_right (Nat.lt_succ_self 5) _
  · exact ⟨.ui a, t, hsolo, h, hlt⟩

theorem Ready.next (hs : Ready w₀ s) (hrunning : ¬ ∃ r, s.pc w₀ = .done r) :
    ∃ a t, Solo w₀ a ∧ Client.step sym s a = some t ∧ Ready w₀ t ∧
      distance w₀ t < distance w₀ s := by
  by_cases hquiet : Quiet s
  · obtain ⟨a, t, hsolo, h, hlt⟩ := @Ready.next_of_quiet sym s w₀ hs hquiet
      fun r hr => hrunning ⟨r, hr⟩
    exact ⟨a, t, hsolo, h, hs.step hsolo h, hlt⟩
  · obtain ⟨a, ha, hsome⟩ := @enabled_of_not_quiet sym s hs.solo.wf hs.live hquiet
    obtain ⟨t, h⟩ := Option.isSome_iff_exists.1 hsome
    have hsolo := hs.solo_of_internal ha h
    exact ⟨a, t, hsolo, h, hs.step hsolo h, hs.distance_of_internal ha h⟩

end Step

/-! ## From any reachable state -/

section Reachable

variable {sym : DecimalFormatSymbols} {acts : List Act} {s : State} {w₀ : Nat}

theorem handling_pad_run (hrun : run (step sym) State.init acts = some s) (c : CallId)
    (intent : Intent) (v : JString) (hpad : s.pads c = some ⟨intent, .handling v⟩) :
    UiPc.handling s.ui = some (c, v) := by
  refine run_preserves (I := fun s => ∀ c intent v, s.pads c = some ⟨intent, .handling v⟩ →
    UiPc.handling s.ui = some (c, v)) ?_ ?_ hrun c intent v hpad
  · intro s a t hs h
    cases a with
    | worker w a => exact (workerStep_cases h).handling_pad hs
    | ui a => exact (uiStep_cases h).handling_pad hs
  · intro c intent v h
    cases h

theorem ready_run (hsolo : ∀ a ∈ acts, Solo w₀ a) (hrun : run (step sym) State.init acts = some s)
    (hrecord : ∀ trd stack, .worker w₀ (.start trd stack) ∈ acts → IsRecord trd)
    (hstarted : s.pc w₀ ≠ .idle) : Ready w₀ s := by
  have hfollows : ∃ trd stack, IsRecord trd ∧ Follows acts s w₀ trd stack := by
    cases started_run hrun w₀ with
    | idle hpc => exact absurd hpc hstarted
    | rejected hpc hcalls hmem hrej => exact absurd (hrecord _ _ hmem).1 hrej
    | @follows trd stack hmem hf => exact ⟨trd, stack, hrecord trd stack hmem, hf⟩
  obtain ⟨trd, stack, ⟨hacc, hdecimal⟩, hf⟩ := hfollows
  refine ⟨soloInv_run hsolo hrun, live_run hrun, handling_pad_run hrun,
    ⟨hstarted, fun hpc => hf.progress_of hpc⟩, ?_⟩
  rw [hf.amount]
  exact (longValueOf_amountString stack hacc).2 hdecimal

end Reachable

/-- **Completion.** With one worker, no spurious wakeups and every pinpad left by `OK`, a
transaction that was started with a record of the grammar can be finished from wherever it is. -/
theorem can_finish {sym : DecimalFormatSymbols} {acts : List Act} {s : State} {w₀ : Nat}
    (hsolo : ∀ a ∈ acts, Solo w₀ a) (hrun : run (step sym) State.init acts = some s)
    (hrecord : ∀ trd stack, .worker w₀ (.start trd stack) ∈ acts → IsRecord trd)
    (hstarted : s.pc w₀ ≠ .idle) :
    ∃ more t r, (∀ a ∈ more, Solo w₀ a) ∧ run (step sym) State.init (acts ++ more) = some t ∧
      t.pc w₀ = .done r := by
  obtain ⟨more, t, hmore, hrun', -, r, hdone⟩ := exists_run_of_measure (distance w₀)
    (fun _ hs hrunning => Ready.next hs hrunning) (ready_run hsolo hrun hrecord hstarted)
  exact ⟨more, t, r, hmore, run_trans hrun hrun', hdone⟩

theorem run_promptRun : ∃ s,
    run (step symbolsEn) State.init (promptRun 0 rouble) = some s ∧ s.pc 0 ≠ .idle := by
  have hpc : (run (step symbolsEn) State.init (promptRun 0 rouble)).map (fun s => s.pc 0) =
      some .waiting := by decide +kernel
  obtain ⟨s, hrun, hpc⟩ := Option.map_eq_some_iff.1 hpc
  refine ⟨s, hrun, ?_⟩
  rw [hpc]
  exact Pc.noConfusion

theorem solo_promptRun : ∀ a ∈ promptRun 0 rouble, Solo 0 a := fun a ha =>
  solo_roubleRun [] a (List.mem_append_left _ (List.mem_append_left _ ha))

theorem isRecord_promptRun (trd : JByteArray) (stack : Fin 13 → UInt8)
    (hmem : .worker 0 (.start trd stack) ∈ promptRun 0 rouble) : IsRecord trd := by
  simp only [promptRun, List.mem_cons, Act.worker.injEq, WorkerAct.start.injEq, true_and,
    reduceCtorEq, and_false, List.not_mem_nil, or_false, or_self] at hmem
  obtain ⟨rfl, -⟩ := hmem
  exact isRecord_rouble

theorem can_finish_prompt : ∃ s, run (step symbolsEn) State.init (promptRun 0 rouble) = some s ∧
    s.pc 0 ≠ .idle ∧ ∃ more t r, (∀ a ∈ more, Solo 0 a) ∧
      run (step symbolsEn) State.init (promptRun 0 rouble ++ more) = some t ∧
        t.pc 0 = .done r := by
  obtain ⟨s, hrun, hstarted⟩ := run_promptRun
  exact ⟨s, hrun, hstarted, can_finish solo_promptRun hrun isRecord_promptRun hstarted⟩

end Fclient.Verify
