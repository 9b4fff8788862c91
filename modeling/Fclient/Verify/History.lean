import Fclient.Verify.Observer
import Fclient.Verify.Refinement

/-!
# The history of a pinpad

A pinpad, which the model creates once, has the layout of its random bytes and shows what the clicks
on it have entered since then (`history_run`), in every reachable state and whatever the other
threads do. A PIN that is confirmed is what the clicks up to the only `OK` have entered
(`spelled_of_confirmed`).
-/

namespace Fclient.Verify

open Base Native Client

/-! ## What has happened to a pinpad -/

def clicksOn (c : CallId) (acts : List Act) : List Click :=
  acts.filterMap fun a => match a with
    | .ui (.click c' k) => if c' = c then some k else none
    | _ => none

/-- The random bytes that a pinpad was created with. -/
def creations (c : CallId) (acts : List Act) : List (Fin 10 → JByte) :=
  acts.filterMap fun a => match a with
    | .ui (.create c' rnd) => if c' = c then some rnd else none
    | _ => none

/-- The pinpad was created once, and `p` is what the clicks on it have made of it. -/
def Shows (sym : DecimalFormatSymbols) (acts : List Act) (c : CallId) (intent : Intent)
    (p : PinpadActivity) : Prop :=
  ∃ rnd p₀, creations c acts = [rnd] ∧ onCreate sym rnd intent = .ok p₀ ∧
    run click p₀ (clicksOn c acts) = some p

/-- The pinpad was created once, and the only `OK` on it confirmed `v`. -/
def Typed (sym : DecimalFormatSymbols) (acts : List Act) (c : CallId) (intent : Intent)
    (v : JString) : Prop :=
  ∃ rnd clicks, creations c acts = [rnd] ∧ clicksOn c acts = clicks ++ [.ok] ∧ .ok ∉ clicks ∧
    Confirms sym rnd intent (clicks ++ [.ok]) v

def History (sym : DecimalFormatSymbols) (acts : List Act) (c : CallId) : Option Pad → Prop
  | none | some ⟨_, .starting⟩ => creations c acts = [] ∧ clicksOn c acts = []
  | some ⟨intent, .shown p⟩ => Shows sym acts c intent p ∧ p.result = none ∧ .ok ∉ clicksOn c acts
  | some ⟨intent, f⟩ => ∀ v, f.confirmed = some v → Typed sym acts c intent v

section History

variable {sym : DecimalFormatSymbols} {acts : List Act} {s t : State} {c : CallId}

theorem clicksOn_concat (c : CallId) (acts : List Act) (a : Act) :
    clicksOn c (acts ++ [a]) = clicksOn c acts ++ clicksOn c [a] :=
  List.filterMap_append

theorem creations_concat (c : CallId) (acts : List Act) (a : Act) :
    creations c (acts ++ [a]) = creations c acts ++ creations c [a] :=
  List.filterMap_append

theorem clicksOn_click (c c' : CallId) (k : Click) :
    clicksOn c [.ui (.click c' k)] = if c' = c then [k] else [] := by
  unfold clicksOn
  by_cases hc : c' = c <;> simp [hc]

theorem creations_create (c c' : CallId) (rnd : Fin 10 → JByte) :
    creations c [.ui (.create c' rnd)] = if c' = c then [rnd] else [] := by
  unfold creations
  by_cases hc : c' = c <;> simp [hc]

@[simp] theorem pads_setPad (c : CallId) (pad : Pad) : (s.setPad c pad).pads c = some pad :=
  Function.update_self _ _ _

theorem pads_setPad_ne {c' : CallId} (hne : c' ≠ c) (pad : Pad) :
    (s.setPad c' pad).pads c = s.pads c :=
  Function.update_of_ne (Ne.symm hne) _ _

/-- Only what happened to the pinpad counts. -/
theorem History.congr {acts acts' : List Act} {pad : Option Pad}
    (hcreate : creations c acts' = creations c acts) (hclick : clicksOn c acts' = clicksOn c acts)
    (h : History sym acts c pad) : History sym acts' c pad := by
  unfold History Shows Typed at h ⊢
  rwa [hcreate, hclick]

theorem History.worker_step {w : Nat} {a : WorkerAct} (h : WorkerStep s w a t) (hs : Wf s)
    (hold : History sym acts c (s.pads c)) :
    History sym (acts ++ [.worker w a]) c (t.pads c) := by
  have hcreate : creations c (acts ++ [.worker w a]) = creations c acts := by
    rw [creations_concat]
    exact List.append_nil _
  have hclick : clicksOn c (acts ++ [.worker w a]) = clicksOn c acts := by
    rw [clicksOn_concat]
    exact List.append_nil _
  obtain ⟨hpc, -, -, ptc, hpads⟩ | ⟨-, hpads⟩ := h.pads_eq
  · by_cases hc : c = s.call w
    · subst hc
      rw [hs.pads_call hpc] at hold
      rw [hpads, Function.update_self]
      exact ⟨hcreate.trans hold.1, hclick.trans hold.2⟩
    · rw [hpads, Function.update_of_ne hc]
      exact hold.congr hcreate hclick
  · rw [hpads]
    exact hold.congr hcreate hclick

/-- A click keeps a pinpad on the screen unless it is `OK`, which confirms what is entered. -/
theorem ofPinpad_cases {p p' : PinpadActivity} {k : Click} (h : click p k = some p')
    (hp : p.result = none) :
    (k ≠ .ok ∧ p'.result = none ∧ Phase.ofPinpad p' = .shown p') ∨
    (k = .ok ∧ ∃ v, p'.result = some (.ok v) ∧ Phase.ofPinpad p' = .finished (.ok v)) := by
  have hshown : p'.result = p.result → p'.result = none ∧ Phase.ofPinpad p' = .shown p' := by
    intro e
    rw [Phase.ofPinpad, e, hp]
    exact ⟨rfl, rfl⟩
  cases k with
  | key i =>
    refine .inl ⟨Click.noConfusion, hshown ?_⟩
    simp only [Client.click, keyClick] at h
    split at h
    · obtain ⟨masked, -, h⟩ := Option.bind_eq_some_iff.1 h
      cases h
      rfl
    · cases h
      rfl
  | reset =>
    cases h
    exact .inl ⟨Click.noConfusion, hshown rfl⟩
  | ok =>
    cases h
    exact .inr ⟨rfl, _, rfl, rfl⟩

theorem History.click {k : Click} {intent : Intent} {p p' : PinpadActivity}
    (hold : History sym acts c (some ⟨intent, .shown p⟩)) (hclick : click p k = some p') :
    History sym (acts ++ [.ui (.click c k)]) c (some ⟨intent, Phase.ofPinpad p'⟩) := by
  obtain ⟨⟨rnd, p₀, hcreate, hp₀, hrun⟩, hres, hok⟩ := hold
  have hcreate' : creations c (acts ++ [.ui (.click c k)]) = [rnd] := by
    rw [creations_concat, hcreate]
    rfl
  have hclicks : clicksOn c (acts ++ [.ui (.click c k)]) = clicksOn c acts ++ [k] := by
    rw [clicksOn_concat, clicksOn_click, if_pos rfl]
  have hrun' := run_concat hrun hclick
  rcases ofPinpad_cases hclick hres with ⟨hk, hres', hphase⟩ | ⟨rfl, v, hres', hphase⟩
  · rw [hphase]
    refine ⟨⟨rnd, p₀, hcreate', hp₀, hclicks ▸ hrun'⟩, hres', ?_⟩
    rw [hclicks, List.mem_append, List.mem_singleton]
    exact fun h => h.elim hok fun e => hk e.symm
  · rw [hphase]
    rintro v' hv
    cases hv
    exact ⟨rnd, _, hcreate', hclicks, hok, p₀, p', hp₀, hrun', hres'⟩

theorem History.ui_step {a : UiAct} (h : UiStep sym s a t) (hs : Wf s)
    (hold : History sym acts c (s.pads c)) : History sym (acts ++ [.ui a]) c (t.pads c) := by
  -- what is not a creation of this pinpad and not a click on it
  have hquiet : creations c [.ui a] = [] → clicksOn c [.ui a] = [] → ∀ pad,
      History sym acts c pad → History sym (acts ++ [.ui a]) c pad := by
    intro hcreate hclick pad hpad
    refine hpad.congr ?_ ?_
    · rw [creations_concat, hcreate, List.append_nil]
    · rw [clicksOn_concat, hclick, List.append_nil]
  have hmove : ∀ {c' intent f f'}, creations c [.ui a] = [] → clicksOn c [.ui a] = [] →
      s.pads c' = some ⟨intent, f⟩ → t.pads = Function.update s.pads c' (some ⟨intent, f'⟩) →
      (History sym acts c (some ⟨intent, f⟩) → History sym acts c (some ⟨intent, f'⟩)) →
      History sym (acts ++ [.ui a]) c (t.pads c) := by
    intro c' intent f f' hcreate hclick hpad hpads hf
    refine hquiet hcreate hclick _ ?_
    rw [hpads]
    by_cases hc : c = c'
    · subst hc
      rw [Function.update_self]
      exact hf (hpad ▸ hold)
    · rwa [Function.update_of_ne hc]
  cases h with
  | @create c' rnd intent p hui hpad hp =>
    by_cases hc : c' = c
    · subst hc
      rw [hpad] at hold
      rw [pads_setPad]
      refine ⟨⟨rnd, p, ?_, hp, ?_⟩, (onCreate_eq_ok hp).2.2.2, ?_⟩
      · rw [creations_concat, creations_create, if_pos rfl, hold.1, List.nil_append]
      · rw [clicksOn_concat, hold.2]
        rfl
      · rw [clicksOn_concat, hold.2]
        exact List.not_mem_nil
    · refine hquiet ?_ rfl _ ?_
      · rw [creations_create, if_neg hc]
      · rwa [pads_setPad_ne hc]
  | @click c' k intent p p' hui hpad hclick =>
    by_cases hc : c' = c
    · subst hc
      rw [hpad] at hold
      rw [pads_setPad]
      exact hold.click hclick
    · refine hquiet rfl ?_ _ ?_
      · rw [clicksOn_click, if_neg hc]
      · rwa [pads_setPad_ne hc]
  | back hui hpad => exact hmove rfl rfl hpad rfl fun _ v hv => by cases hv
  | deliverOk hui hpad => exact hmove rfl rfl hpad rfl id
  | deliverCanceled hui hpad => exact hmove rfl rfl hpad rfl id
  | notify hui howner hpad =>
    obtain ⟨intent, hpad'⟩ := hs.handling _ _ (congrArg UiPc.handling hui)
    cases hpad.symm.trans hpad'
    exact hmove rfl rfl hpad' rfl id
  | write | enter | exit => exact hquiet rfl rfl _ hold

theorem history_run (hrun : run (step sym) State.init acts = some s) (c : CallId) :
    History sym acts c (s.pads c) := by
  refine run_history (I := fun acts s => History sym acts c (s.pads c)) ?_ ?_ hrun
  · exact ⟨rfl, rfl⟩
  · intro acts s a t hs hold hstep
    have hwf := wf_run hs
    cases a with
    | worker w a => exact History.worker_step (workerStep_cases hstep) hwf hold
    | ui a => exact History.ui_step (uiStep_cases hstep) hwf hold

/-- The clicks on the pinpad `c`, up to its only `OK`, have entered `v`. -/
def Spelled (acts : List Act) (c : CallId) (v : JString) : Prop :=
  ∃ rnd clicks, creations c acts = [rnd] ∧ clicksOn c acts = clicks ++ [.ok] ∧ .ok ∉ clicks ∧
    v = entered (shuffleKeys rnd layoutLabels) clicks

theorem Typed.spelled {intent : Intent} {v : JString} (h : Typed sym acts c intent v) :
    Spelled acts c v := by
  obtain ⟨rnd, clicks, hcreate, hclicks, hok, hconf⟩ := h
  exact ⟨rnd, clicks, hcreate, hclicks, hok, hconf.eq_entered⟩

/-- A pinpad spells one PIN at most. -/
theorem Spelled.unique {v v' : JString} (h : Spelled acts c v) (h' : Spelled acts c v') :
    v = v' := by
  obtain ⟨rnd, clicks, hcreate, hclicks, -, rfl⟩ := h
  obtain ⟨rnd', clicks', hcreate', hclicks', -, rfl⟩ := h'
  rw [hcreate] at hcreate'
  rw [hclicks] at hclicks'
  obtain ⟨rfl, -⟩ := List.cons.inj hcreate'
  rw [List.append_cancel_right hclicks']

theorem spelled_of_confirmed (hrun : run (step sym) State.init acts = some s) {v : JString}
    (hc : s.confirmed c = some v) : Spelled acts c v := by
  obtain ⟨⟨intent, f⟩, hpad, hv⟩ := Option.bind_eq_some_iff.1 hc
  have hist := history_run hrun c
  rw [hpad] at hist
  cases f with
  | starting | shown p => cases hv
  | finished r | handling r | handled r => exact (hist v hv).spelled

end History

end Fclient.Verify
