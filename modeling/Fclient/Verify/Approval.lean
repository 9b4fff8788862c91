import Fclient.Verify.Completion
import Fclient.Verify.Provenance

/-!
# When a transaction can still be approved

A user who has an attempt left is never locked out, and one who has none cannot be let in by any
order of events: from every reachable state of a single transaction, an approval can be reached
exactly as long as an attempt is left that is not lost (`approvable_iff`).
-/

namespace Fclient.Verify

open Base Native Client

/-- What is left for a worker with this counter and this PIN confirmed in its current pinpad. -/
def chanceOf (ptc : Nat) (confirmed : Option JString) : Pc → Prop
  | .idle | .rejected => False
  | .head => 0 < ptc
  | .compare v => 1 < ptc ∨ 0 < ptc ∧ v = jstr "4343"
  | .done r => r = true
  | _ => 1 < ptc ∨ 0 < ptc ∧ ∀ v, confirmed = some v → v = jstr "4343"

/-- The transaction is approved, or an attempt is left that is not lost: no wrong PIN was confirmed
in the current pinpad, or another one will follow. -/
def Chance (w₀ : Nat) (s : State) : Prop :=
  chanceOf (s.workers w₀).ptc (s.confirmed (s.call w₀)) (s.pc w₀)

section Step

variable {sym : DecimalFormatSymbols} {s t : State} {w₀ : Nat}

theorem chance_of_workers {x : Worker} (hx : t.workers w₀ = x) :
    Chance w₀ t ↔ chanceOf x.ptc (t.confirmed ⟨w₀, x.calls⟩) x.pc := by
  rw [Chance, State.call, State.pc, hx]

/-! ## The worker -/

theorem Wf.confirmed_call (hs : Wf s) (hl : Pc.launched (s.pc w₀) = false) :
    s.confirmed (s.call w₀) = none := by
  have hnone : s.pads (s.call w₀) = none := by
    by_contra hne
    have hlt := (hs.pads _).1 hne
    unfold State.pc at hl
    simp [launches, hl, State.call] at hlt
  rw [State.confirmed, hnone]
  rfl

theorem unconfirmed_iff (n : Nat) :
    (1 < n ∨ 0 < n ∧ ∀ v, (none : Option JString) = some v → v = jstr "4343") ↔ 0 < n := by
  constructor
  · rintro (h | ⟨h, -⟩) <;> omega
  · exact fun h => .inr ⟨h, fun v hv => by cases hv⟩

/-- **A step of the worker** neither wins nor loses an attempt. -/
theorem chance_worker {a : WorkerAct} (hs : SoloInv w₀ s) (h : WorkerStep s w₀ a t)
    (hsolo : Solo w₀ (.worker w₀ a)) (hread : ReadableStep s (.worker w₀ a))
    (hstarted : s.pc w₀ ≠ .idle) : Chance w₀ t ↔ Chance w₀ s := by
  cases h with
  | rejected hpc | accepted hpc => exact absurd hpc hstarted
  | wake => exact hsolo.elim
  | prompt hpc hptc =>
    have hnone := hs.wf.confirmed_call (congrArg Pc.launched hpc)
    refine (chance_of_workers (workers_setWorker _)).trans ?_
    rw [Chance, hpc]
    show (1 < (s.workers w₀).ptc ∨ 0 < (s.workers w₀).ptc ∧
      ∀ v, s.confirmed (s.call w₀) = some v → v = jstr "4343") ↔ 0 < (s.workers w₀).ptc
    rw [hnone]
    exact unconfirmed_iff _
  | exhausted hpc hptc =>
    refine (chance_of_workers (workers_setWorker _)).trans ?_
    rw [Chance, hpc, hptc]
    exact iff_of_false Bool.false_ne_true (Nat.lt_irrefl 0)
  | reset hpc | enter hpc | wait hpc | resume hpc | exit hpc =>
    refine (chance_of_workers (workers_setWorker _)).trans ?_
    rw [Chance, hpc]
    exact Iff.rfl
  | launch hpc =>
    have hnone := hs.wf.confirmed_call (congrArg Pc.launched hpc)
    refine (chance_of_workers (workers_setWorker _)).trans ?_
    rw [Chance, hpc, hnone,
      confirmed_of_pads (Function.update_self _ _ _)]
    exact Iff.rfl
  | @ret v hpc hpin =>
    have hconf : s.confirmed (s.call w₀) = some v := by
      obtain ⟨intent, v', hpad, hpin'⟩ := hs.current w₀ (by rw [hpc]; rfl)
        (hs.wf.not_blocked (by simp [hpc]) (by simp [hpc]))
      cases hpin.symm.trans hpin'
      exact confirmed_of_pads hpad
    refine (chance_of_workers (workers_setWorker _)).trans ?_
    rw [Chance, hpc, hconf]
    simp [chanceOf]
  | @matched v released hpc hm =>
    rw [pinMatches_intact (hread v hpc)] at hm
    refine (chance_of_workers (workers_setWorker _)).trans ?_
    rw [Chance, hpc]
    simp only [chanceOf, decide_eq_true_eq, hm, and_true]
    omega
  | @mismatched v released hpc hm =>
    rw [← Bool.not_eq_true, pinMatches_intact (hread v hpc)] at hm
    refine (chance_of_workers (workers_setWorker _)).trans ?_
    rw [Chance, hpc]
    simp only [chanceOf, hm, and_false, or_false]
    omega

/-! ## The UI thread -/

/-- Nothing but an `OK` confirms a PIN. -/
theorem UiStep.confirmed_of {a : UiAct} (h : UiStep sym s a t) (hs : SoloInv w₀ s)
    (hok : ∀ c, a ≠ .click c .ok) {c : CallId} {v : JString} (hc : t.confirmed c = some v) :
    s.confirmed c = some v := by
  have hmove : ∀ {c' intent f f'}, s.pads c' = some ⟨intent, f⟩ →
      t.pads = Function.update s.pads c' (some ⟨intent, f'⟩) →
      f'.confirmed = none ∨ f'.confirmed = f.confirmed → s.confirmed c = some v := by
    intro c' intent f f' hpad hpads hf
    by_cases he : c = c'
    · subst he
      rw [confirmed_of_pads (by rw [hpads, Function.update_self])] at hc
      rcases hf with hf | hf
      · cases hf.symm.trans hc
      · rw [confirmed_of_pads hpad, ← hf, hc]
    · rwa [State.confirmed, hpads, Function.update_of_ne he] at hc
  cases h with
  | create hui hpad | back hui hpad | deliverCanceled hui hpad => exact hmove hpad rfl (.inl rfl)
  | @click c' k intent p p' hui hpad hclick =>
    obtain ⟨-, -, hphase⟩ | ⟨rfl, -⟩ := ofPinpad_cases hclick (hs.uncanceled _ _ _ hpad)
    · exact hmove hpad rfl (.inl (by rw [hphase]; rfl))
    · exact absurd rfl (hok c')
  | deliverOk hui hpad => exact hmove hpad rfl (.inr rfl)
  | notify hui howner hpad =>
    obtain ⟨intent, hpad'⟩ := hs.wf.handling _ _ (congrArg UiPc.handling hui)
    cases hpad.symm.trans hpad'
    exact hmove hpad rfl (.inr rfl)
  | write | enter | exit => exact hc

theorem chanceOf_mono {n : Nat} {conf conf' : Option JString} {pc : Pc}
    (h : ∀ v, conf' = some v → conf = some v) (hc : chanceOf n conf pc) : chanceOf n conf' pc := by
  cases pc with
  | reset | enter | launch | wait | waiting | exit | ret =>
    exact hc.imp_right fun hc => ⟨hc.1, fun v hv => hc.2 v (h v hv)⟩
  | _ => exact hc

/-- The PIN itself is never a wrong one. -/
theorem chanceOf_some {n : Nat} {conf : Option JString} {pc : Pc} (hc : chanceOf n conf pc) :
    chanceOf n (some (jstr "4343")) pc := by
  cases pc with
  | reset | enter | launch | wait | waiting | exit | ret =>
    exact hc.imp_right fun hc => ⟨hc.1, fun _ hv => (Option.some.inj hv).symm⟩
  | _ => exact hc

theorem chance_of_ui {a : UiAct} (h : UiStep sym s a t) (hs : Wf s) (ht : Chance w₀ t) :
    Chance w₀ s := by
  have hc := (chance_of_workers (congrFun h.workers_eq w₀)).1 ht
  exact chanceOf_mono (fun _ hv => h.confirmed hs hv) hc

theorem chance_ui {a : UiAct} (h : UiStep sym s a t) (hs : SoloInv w₀ s)
    (hok : ∀ c, a ≠ .click c .ok) (hc : Chance w₀ s) : Chance w₀ t :=
  (chance_of_workers (congrFun h.workers_eq w₀)).2
    (chanceOf_mono (fun _ hv => h.confirmed_of hs hok hv) hc)

/-- A lost transaction stays lost, whatever the user does. -/
theorem chance_of_step {a : Act} (hs : SoloInv w₀ s) (hsolo : Solo w₀ a) (hread : ReadableStep s a)
    (hstarted : s.pc w₀ ≠ .idle) (h : step sym s a = some t) (ht : Chance w₀ t) : Chance w₀ s := by
  cases a with
  | worker w a =>
    have hstep := workerStep_cases h
    obtain rfl := hsolo.worker_eq
    exact (chance_worker hs hstep hsolo hread hstarted).1 ht
  | ui a => exact chance_of_ui (uiStep_cases h) hs.wf ht

theorem chance_step {a : Act} (hs : SoloInv w₀ s) (hsolo : Solo w₀ a) (hread : ReadableStep s a)
    (hstarted : s.pc w₀ ≠ .idle) (hok : ∀ c, a ≠ .ui (.click c .ok)) (h : step sym s a = some t)
    (hc : Chance w₀ s) : Chance w₀ t := by
  cases a with
  | worker w a =>
    have hstep := workerStep_cases h
    obtain rfl := hsolo.worker_eq
    exact (chance_worker hs hstep hsolo hread hstarted).2 hc
  | ui a => exact chance_ui (uiStep_cases h) hs (fun c e => hok c (congrArg Act.ui e)) hc

/-! ## Typing the PIN -/

theorem setPad_setPad (c : CallId) (pad pad' : Pad) :
    (s.setPad c pad).setPad c pad' = s.setPad c pad' := by
  simp only [State.setPad, Function.update_idem]

theorem call_setPad (c : CallId) (pad : Pad) (w : Nat) : (s.setPad c pad).call w = s.call w := rfl

theorem setPad_self {c : CallId} {pad : Pad} (h : s.pads c = some pad) : s.setPad c pad = s := by
  unfold State.setPad
  rw [← h, Function.update_eq_self]

/-- Clicks other than `OK` leave the pinpad open and do nothing else. -/
theorem run_clicks (hui : s.ui = .idle) {c : CallId} {intent : Intent} {cs : List Click}
    {p p' : PinpadActivity} (hp : p.result = none) (hok : .ok ∉ cs)
    (hrun : run click p cs = some p') :
    run (step sym) (s.setPad c ⟨intent, .shown p⟩) (cs.map fun k => .ui (.click c k)) =
      some (s.setPad c ⟨intent, .shown p'⟩) := by
  induction cs generalizing p with
  | nil =>
    cases hrun
    rfl
  | cons k cs ih =>
    rw [run_cons, Option.bind_eq_some_iff] at hrun
    obtain ⟨q, hq, hrun⟩ := hrun
    rw [List.mem_cons, not_or] at hok
    obtain ⟨-, hres, hphase⟩ | ⟨rfl, -⟩ := ofPinpad_cases hq hp
    · have hstep : step sym (s.setPad c ⟨intent, .shown p⟩) (.ui (.click c k)) =
          some (s.setPad c ⟨intent, .shown q⟩) := by
        have hidle : (s.setPad c ⟨intent, .shown p⟩).ui = .idle := hui
        simp only [step, uiStep, hidle, pads_setPad, hq, Option.map_some, hphase, setPad_setPad]
      rw [List.map_cons, run_cons, hstep]
      exact ih hres hok.2 hrun
    · exact absurd rfl hok.1

/-- In every layout and after any clicks there are keys for every PIN of at most four digits. -/
theorem Shows.exists_keys {acts : List Act} {c : CallId} {intent : Intent} {p : PinpadActivity}
    (h : Shows sym acts c intent p) (ds : List (Fin 10)) (hlen : ds.length ≤ 4) :
    ∃ (ks : List (Fin 10)) (q : PinpadActivity),
      run click p ([Click.reset] ++ ks.map Click.key) = some q ∧ q.pin = pinOf ds := by
  obtain ⟨rnd, p₀, -, hp₀, hrun⟩ := h
  obtain ⟨σ, hσ⟩ := exists_perm rnd
  obtain ⟨hlabels, hstart⟩ := entry_onCreate hp₀
  obtain ⟨q, hq, hentry⟩ := entry_run hlabels hstart
    (clicksOn c acts ++ [Click.reset] ++ (ds.map σ.symm).map Click.key)
  have hqlabels : q.labels = layoutLabels ∘ σ :=
    (hentry.labels.trans (onCreate_eq_ok hp₀).1).trans (hσ layoutLabels)
  refine ⟨ds.map σ.symm, q, ?_, ?_⟩
  · rw [List.append_assoc, run_append, hrun] at hq
    exact hq
  · rw [hentry.pin, hqlabels, entered_comp, sinceReset_keys,
      List.take_of_length_le (by rw [List.length_map]; exact hlen)]
    simp

/-- The worker and the user cooperate: no other worker runs, no pinpad is left by back, and no
released buffer is changed before it is compared. -/
def Fair (w₀ : Nat) (s : State) (a : Act) : Prop := Solo w₀ a ∧ ReadableStep s a

/-- The pinpad is open: every PIN of at most four digits can be typed and confirmed. -/
theorem exists_typed {acts : List Act} (hrun : run (step sym) State.init acts = some s)
    (hui : s.ui = .idle) {c : CallId} {intent : Intent} {p : PinpadActivity}
    (hpad : s.pads c = some ⟨intent, .shown p⟩) {ds : List (Fin 10)} (hlen : ds.length ≤ 4) :
    ∃ cs : List Click, run (step sym) s (cs.map fun k => .ui (.click c k)) =
      some (s.setPad c ⟨intent, .finished (.ok (pinOf ds))⟩) := by
  have hist := history_run hrun c
  rw [hpad] at hist
  obtain ⟨hshows, hres, -⟩ := hist
  obtain ⟨ks, q, hq, hpin⟩ := hshows.exists_keys ds hlen
  have hok : .ok ∉ [Click.reset] ++ ks.map Click.key := by simp
  have hkeys := @run_clicks sym s hui c intent _ p q hres hok hq
  rw [setPad_self hpad] at hkeys
  refine ⟨[Click.reset] ++ ks.map Click.key ++ [.ok], ?_⟩
  rw [List.map_append]
  refine run_concat hkeys ?_
  have hidle : (s.setPad c ⟨intent, .shown q⟩).ui = .idle := hui
  simp only [step, uiStep, hidle, pads_setPad, click, Option.map_some, setPad_setPad]
  rw [Phase.ofPinpad, okClick, hpin]

theorem along_clicks (w₀ : Nat) (c : CallId) (cs : List Click) (s : State) :
    Along (step sym) (Fair w₀) s (cs.map fun k => .ui (.click c k)) := by
  have hclick : ∀ a ∈ cs.map (fun k => Act.ui (.click c k)), ∃ k, a = Act.ui (.click c k) := by
    intro a ha
    obtain ⟨k, -, rfl⟩ := List.mem_map.1 ha
    exact ⟨k, rfl⟩
  refine (along_of_mem hclick s).mono ?_
  rintro s a ⟨k, rfl⟩
  exact ⟨trivial, trivial⟩

/-! ## Getting the approval -/

/-- A comparison finds what `content` says about its string in the released buffer. -/
def Finds (content : JString → List UInt8) (s : State) : Act → Prop
  | .worker w (.compare released) => ∀ v, s.pc w = .compare v → released = content v
  | _ => True

theorem Finds.readable {a : Act} (h : Finds encodeUtf s a) : ReadableStep s a := by
  cases a with
  | ui a => trivial
  | worker w a =>
    cases a with
    | compare released => exact fun v hv => intact_iff.2 (h v hv)
    | _ => trivial

/-- Where a thread can go on, it can do so with any content of the buffer that it compares. -/
theorem exists_finds (content : JString → List UInt8) {a : Act} (ha : Internal a)
    (h : step sym s a = some t) :
    ∃ a' t', Internal a' ∧ Finds content s a' ∧ step sym s a' = some t' := by
  cases a with
  | ui a => exact ⟨.ui a, t, ha, trivial, h⟩
  | worker w a =>
    cases a with
    | compare released =>
      have hpc : ∃ v, s.pc w = .compare v := by
        cases workerStep_cases h with
        | matched hpc | mismatched hpc => exact ⟨_, hpc⟩
      obtain ⟨v, hpc⟩ := hpc
      have hfinds : Finds content s (.worker w (.compare (content v))) := by
        intro v' hv'
        rw [Pc.compare.inj (hpc.symm.trans hv')]
      have hnext : ∃ t', step sym s (.worker w (.compare (content v))) = some t' := by
        unfold State.pc at hpc
        simp only [step, workerStep, hpc]
        exact ⟨_, rfl⟩
      obtain ⟨t', h'⟩ := hnext
      exact ⟨.worker w (.compare (content v)), t', trivial, hfinds, h'⟩
    | _ => exact ⟨_, t, ha, trivial, h⟩

/-- A transaction that is not finished comes closer to its end when a PIN is typed into the open
pinpad of its current call, or by a step that confirms nothing. -/
theorem Ready.closer {acts : List Act} (hs : Ready w₀ s)
    (hacts : Base.run (Client.step sym) State.init acts = some s)
    (hrunning : ¬ ∃ r, s.pc w₀ = .done r) (content : JString → List UInt8) {ds : List (Fin 10)}
    (hlen : ds.length ≤ 4) :
    (∃ intent, ∃ cs : List Click,
      Base.run (Client.step sym) s (cs.map fun k => .ui (.click (s.call w₀) k)) =
        some (s.setPad (s.call w₀) ⟨intent, .finished (.ok (pinOf ds))⟩) ∧
      distance w₀ (s.setPad (s.call w₀) ⟨intent, .finished (.ok (pinOf ds))⟩) < distance w₀ s) ∨
    ∃ a t, Solo w₀ a ∧ Finds content s a ∧ (∀ c, a ≠ .ui (.click c .ok)) ∧
      Client.step sym s a = some t ∧ distance w₀ t < distance w₀ s := by
  by_cases hquiet : Quiet s
  · rcases @Ready.quiet_cases sym s w₀ hs hquiet fun r hr => hrunning ⟨r, hr⟩ with
      ⟨intent, p, hpad⟩ | ⟨a, t, hclick, hsolo, h, hlt⟩
    · obtain ⟨cs, hrun⟩ := exists_typed hacts hquiet.1 hpad hlen
      refine .inl ⟨intent, cs, hrun, distance_lt_of_pad hpad rfl rfl rfl ?_⟩
      exact Nat.add_lt_add_right (Nat.lt_succ_self 5) _
    · refine .inr ⟨.ui a, t, hsolo, trivial, ?_, h, hlt⟩
      intro c e
      exact hclick c .ok (Act.ui.inj e)
  · obtain ⟨a, ha, hsome⟩ := @enabled_of_not_quiet sym s hs.solo.wf hs.live hquiet
    obtain ⟨t, h⟩ := Option.isSome_iff_exists.1 hsome
    obtain ⟨a', t', ha', hfinds, h'⟩ := exists_finds content ha h
    refine .inr ⟨a', t', hs.solo_of_internal ha' h', hfinds, ?_, h', hs.distance_of_internal ha' h'⟩
    rintro c rfl
    exact ha'

theorem Ready.run {as : List Act} (hs : Ready w₀ s)
    (has : Along (Client.step sym) (fun _ => Solo w₀) s as)
    (hrun : Base.run (Client.step sym) s as = some t) : Ready w₀ t := by
  refine run_invariant ?_ hs has hrun
  intro s a t hs hsolo h
  exact hs.step hsolo h

theorem Ready.approach {acts : List Act} (hs : Ready w₀ s)
    (hacts : Base.run (Client.step sym) State.init acts = some s) (hc : Chance w₀ s)
    (hrunning : ¬ ∃ r, s.pc w₀ = .done r) :
    ∃ as t, Along (Client.step sym) (Fair w₀) s as ∧ Base.run (Client.step sym) s as = some t ∧
      Chance w₀ t ∧ distance w₀ t < distance w₀ s := by
  have hlen : ([4, 3, 4, 3] : List (Fin 10)).length ≤ 4 := Nat.le_refl 4
  rcases hs.closer hacts hrunning encodeUtf hlen with
    ⟨intent, cs, hrun, hlt⟩ | ⟨a, t, hsolo, hfinds, hok, h, hlt⟩
  · refine ⟨_, _, along_clicks w₀ _ cs s, hrun, ?_, hlt⟩
    have hpin : pinOf [4, 3, 4, 3] = jstr "4343" := rfl
    rw [Chance, call_setPad, confirmed_of_pads (pads_setPad _ _), hpin]
    exact chanceOf_some hc
  · have hread := hfinds.readable
    refine ⟨[a], t, along_singleton ⟨hsolo, hread⟩, by rw [run_singleton, h], ?_, hlt⟩
    exact chance_step hs.solo hsolo hread hs.started.1 hok h hc

end Step

/-- **Approval.** In every reachable state of a single transaction with a record of the grammar, the
user can still get it approved exactly as long as an attempt is left that is not lost. -/
theorem approvable_iff {sym : DecimalFormatSymbols} {acts : List Act} {s : State} {w₀ : Nat}
    (hsolo : ∀ a ∈ acts, Solo w₀ a) (hrun : run (step sym) State.init acts = some s)
    (hrecord : ∀ trd stack, .worker w₀ (.start trd stack) ∈ acts → IsRecord trd)
    (hstarted : s.pc w₀ ≠ .idle) :
    (∃ more t, Along (step sym) (Fair w₀) s more ∧ run (step sym) s more = some t ∧
      t.pc w₀ = .done true) ↔ Chance w₀ s := by
  have hready := ready_run hsolo hrun hrecord hstarted
  constructor
  · rintro ⟨more, t, hmore, hmore', hdone⟩
    by_contra hlost
    have hkeep : ∀ s a t, Ready w₀ s ∧ ¬ Chance w₀ s → Fair w₀ s a → step sym s a = some t →
        Ready w₀ t ∧ ¬ Chance w₀ t := by
      rintro s a t ⟨hs, hlost⟩ ⟨hsolo, hread⟩ h
      refine ⟨hs.step hsolo h, ?_⟩
      intro ht
      exact hlost (chance_of_step hs.solo hsolo hread hs.started.1 h ht)
    have hinv := run_invariant hkeep ⟨hready, hlost⟩ hmore hmore'
    apply hinv.2
    rw [Chance, hdone]
    rfl
  · intro hc
    have hnext : ∀ s, (Ready w₀ s ∧ Chance w₀ s ∧
        ∃ acts, run (step sym) State.init acts = some s) → (¬ ∃ r, s.pc w₀ = .done r) →
        ∃ as t, Along (step sym) (Fair w₀) s as ∧ run (step sym) s as = some t ∧
          (Ready w₀ t ∧ Chance w₀ t ∧ ∃ acts, run (step sym) State.init acts = some t) ∧
            distance w₀ t < distance w₀ s := by
      rintro s ⟨hs, hc, acts, hacts⟩ hrunning
      obtain ⟨as, t, has, hrun, hc', hlt⟩ := hs.approach hacts hc hrunning
      have hready := hs.run (has.mono fun _ _ hfair => hfair.1) hrun
      exact ⟨as, t, has, hrun, ⟨hready, hc', acts ++ as, run_trans hacts hrun⟩, hlt⟩
    obtain ⟨more, t, hmore, hmore', ⟨-, hc', -⟩, r, hdone⟩ :=
      exists_run_along _ hnext ⟨hready, hc, acts, hrun⟩
    refine ⟨more, t, hmore, hmore', ?_⟩
    rw [Chance, hdone] at hc'
    rw [hdone, show r = true from hc']

/-- The first pinpad is open, and all three attempts are left. -/
theorem approvable_iff_prompt : ∃ s,
    run (step symbolsEn) State.init (promptRun 0 rouble) = some s ∧
    ∃ more t, Along (step symbolsEn) (Fair 0) s more ∧ run (step symbolsEn) s more = some t ∧
      t.pc 0 = .done true := by
  have hwaiting : (run (step symbolsEn) State.init (promptRun 0 rouble)).map
      (fun s => (s.pc 0, (s.workers 0).ptc)) = some (.waiting, 3) := by decide +kernel
  obtain ⟨s, hrun, hs⟩ := Option.map_eq_some_iff.1 hwaiting
  obtain ⟨hpc, hptc⟩ := Prod.mk.inj hs
  have hchance : Chance 0 s := by
    rw [Chance, hpc, hptc]
    exact .inl (by decide)
  have hstarted : s.pc 0 ≠ .idle := by
    rw [hpc]
    exact Pc.noConfusion
  exact ⟨s, hrun, (approvable_iff solo_promptRun hrun isRecord_promptRun hstarted).2 hchance⟩

end Fclient.Verify
