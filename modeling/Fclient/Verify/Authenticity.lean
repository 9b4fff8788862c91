import Fclient.Verify.Solo
import Fclient.Verify.Verdict

/-!
# Whose PIN a call returns

All calls of `enterPIN` read their result from one field. Between the reset and the return of a call
that field holds the empty string or the PIN of the call's own pinpad, as long as `onActivityResult`
writes no other PIN to it meanwhile (`OwnWrite`), and the comparison of a returned string is one
with `4343` as long as its released buffer is not changed before (`ReadableStep`). In the runs that
keep to both, every non-empty string a call returns was confirmed in the pinpad it launched, and a
transaction is approved by the `4343` of its own pinpad (`authentic_run`).
-/

namespace Fclient.Verify

open Base Native Client

/-- A PIN that is not empty is written only while no other call than its own is in progress. -/
def OwnWrite (s : State) : Act → Prop
  | .ui .write => ∀ c v, s.ui = .write c v → v ≠ [] →
    ∀ w, Pc.inCall (s.pc w) = true → s.call w = c
  | _ => True

/-- A released buffer is compared with the string still in it. -/
def ReadableStep (s : State) : Act → Prop
  | .worker w (.compare released) => ∀ v, s.pc w = .compare v → Intact ⟨v, released⟩
  | _ => True

/-- What the returned strings, the amounts and the verdicts go back to. -/
structure Authentic (s : State) : Prop where
  returned : ∀ c v, s.returned c = some v → v ≠ [] → s.confirmed c = some v
  amount : ∀ c, s.returned c ≠ none →
    ∃ pad, s.pads c = some pad ∧ pad.intent.amount = some (s.workers c.worker).amount
  approved : ∀ w, s.pc w = .done true → ∃ k, (s.workers w).calls = k + 1 ∧
    s.returned ⟨w, k⟩ = some (jstr "4343") ∧ s.confirmed ⟨w, k⟩ = some (jstr "4343")

/-! ## The returned strings -/

structure AuthInv (s : State) : Prop where
  wf : Wf s
  pin : ∀ w, Pc.inCall (s.pc w) = true →
    ∃ v, s.pin = some v ∧ (v ≠ [] → s.confirmed (s.call w) = some v)
  returned : ∀ c v, s.returned c = some v → v ≠ [] → s.confirmed c = some v

theorem authInv_init : AuthInv State.init where
  wf := wf_init
  pin _ h := by cases h
  returned _ _ h := by cases h

section Step

variable {sym : DecimalFormatSymbols} {s t : State} {w : Nat}

theorem pin_worker {a : WorkerAct} (h : WorkerStep s w a t) (hs : AuthInv s) (w' : Nat)
    (hin : Pc.inCall (t.pc w') = true) :
    ∃ v, t.pin = some v ∧ (v ≠ [] → t.confirmed (t.call w') = some v) := by
  have hempty : t.pin = some [] →
      ∃ v, t.pin = some v ∧ (v ≠ [] → t.confirmed (t.call w') = some v) :=
    fun hpin => ⟨[], hpin, fun hne => absurd rfl hne⟩
  have hkeep : Pc.inCall (s.pc w') = true → t.pin = s.pin → t.call w' = s.call w' →
      ∃ v, t.pin = some v ∧ (v ≠ [] → t.confirmed (t.call w') = some v) := by
    intro hin hpin hcall
    obtain ⟨v, hv, hconf⟩ := hs.pin w' hin
    rw [hpin, hcall]
    exact ⟨v, hv, fun hne => h.confirmed hs.wf (hconf hne)⟩
  by_cases hw : w' = w
  · subst hw
    rcases h.inCall_self hin with hpin | ⟨hin, hpin, hcall⟩
    · exact hempty hpin
    · exact hkeep hin hpin hcall
  · rcases h.pin_eq with hpin | ⟨-, hpin⟩
    · exact hkeep (h.pc_ne hw ▸ hin) hpin (h.call_ne hw)
    · exact hempty hpin

theorem returned_auth {a : WorkerAct} (h : WorkerStep s w a t) (hs : AuthInv s) (c : CallId)
    (v : JString) (hret : t.returned c = some v) (hne : v ≠ []) : t.confirmed c = some v := by
  obtain ⟨v', hpc, hpin, -, hreturned⟩ | ⟨-, hreturned⟩ := h.returned_eq
  · rw [hreturned] at hret
    by_cases hc : c = s.call w
    · subst hc
      rw [Function.update_self] at hret
      cases hret
      obtain ⟨v', hpin', hconf⟩ := hs.pin w (by rw [hpc]; rfl)
      cases hpin.symm.trans hpin'
      exact h.confirmed hs.wf (hconf hne)
    · rw [Function.update_of_ne hc] at hret
      exact h.confirmed hs.wf (hs.returned c v hret hne)
  · exact h.confirmed hs.wf (hs.returned c v (hreturned ▸ hret) hne)

theorem AuthInv.worker_step {a : WorkerAct} (hs : AuthInv s) (h : WorkerStep s w a t) :
    AuthInv t where
  wf := hs.wf.worker_step h
  pin := pin_worker h hs
  returned := returned_auth h hs

theorem AuthInv.ui_step {a : UiAct} (hs : AuthInv s) (h : UiStep sym s a t)
    (hown : OwnWrite s (.ui a)) : AuthInv t where
  wf := hs.wf.ui_step h
  pin w hin := by
    rw [State.pc, h.workers_eq] at hin
    rw [h.call_eq]
    obtain ⟨v, hv, hconf⟩ := hs.pin w hin
    have hconf' := fun hne => h.confirmed hs.wf (hconf hne)
    cases h with
    | @write c v' hui =>
      refine ⟨v', rfl, fun hne => ?_⟩
      obtain ⟨intent, hpad⟩ := hs.wf.handling c v' (congrArg UiPc.handling hui)
      rw [hown c v' hui hne w hin]
      exact confirmed_of_pads hpad
    | _ => exact ⟨v, hv, hconf'⟩
  returned c v hret hne := h.confirmed hs.wf (hs.returned c v (h.returned_eq ▸ hret) hne)

end Step

theorem AuthInv.step {sym : DecimalFormatSymbols} {s t : State} {a : Act} (hs : AuthInv s)
    (hown : OwnWrite s a) (h : step sym s a = some t) : AuthInv t := by
  cases a with
  | worker w a => exact hs.worker_step (workerStep_cases h)
  | ui a => exact hs.ui_step (uiStep_cases h) hown

theorem authInv_run {sym : DecimalFormatSymbols} {acts : List Act} {s : State}
    (hown : Along (step sym) OwnWrite State.init acts)
    (hrun : run (step sym) State.init acts = some s) : AuthInv s :=
  run_invariant (fun _ _ _ hs hown h => AuthInv.step hs hown h) authInv_init hown hrun

/-! ## The verdicts -/

/-- The last answer of an approved transaction is the PIN. -/
def ByPin (s : State) : Prop :=
  ∀ w k v, s.pc w = .done true → (s.workers w).calls = k + 1 → s.returned ⟨w, k⟩ = some v →
    v = jstr "4343"

theorem byPin_worker {s t : State} {w : Nat} {a : WorkerAct} (h : WorkerStep s w a t) (hwf : Wf s)
    (hread : ReadableStep s (.worker w a)) (hs : ByPin s) : ByPin t := by
  intro w' k v hpc hcalls hret
  by_cases hw : w' = w
  · subst hw
    cases h with
    | @matched v' released hpc' hm =>
      -- what was compared is what the last call returned
      obtain ⟨k', hcalls', hret'⟩ := hwf.compared w' v' hpc'
      have hk : k' = k := by
        have hcalls : (s.workers w').calls = k + 1 := by simpa [State.setPc] using hcalls
        omega
      subst hk
      cases hret'.symm.trans hret
      exact (pinMatches_intact (hread v hpc')).1 hm
    | wake hpc' => cases hpc'.symm.trans hpc
    | prompt | exhausted | rejected | accepted | reset | enter | launch | wait | resume | exit
    | ret | mismatched => simp [State.pc, State.setPc, State.setWorker] at hpc
  · rw [h.pc_ne hw] at hpc
    rw [h.workers_ne hw] at hcalls
    refine hs w' k v hpc hcalls ?_
    obtain ⟨v', -, -, -, hreturned⟩ | ⟨-, hreturned⟩ := h.returned_eq
    · have hc : (⟨w', k⟩ : CallId) ≠ s.call w := fun e => hw (congrArg CallId.worker e)
      rwa [hreturned, Function.update_of_ne hc] at hret
    · rwa [hreturned] at hret

theorem byPin_step {sym : DecimalFormatSymbols} {s t : State} {a : Act} (hwf : Wf s)
    (hread : ReadableStep s a) (hs : ByPin s) (h : step sym s a = some t) : ByPin t := by
  cases a with
  | worker w a => exact byPin_worker (workerStep_cases h) hwf hread hs
  | ui a =>
    have hu := uiStep_cases h
    intro w k v hpc hcalls hret
    rw [State.pc, hu.workers_eq] at hpc
    rw [hu.workers_eq] at hcalls
    exact hs w k v hpc hcalls (hu.returned_eq ▸ hret)

theorem byPin_run {sym : DecimalFormatSymbols} {acts : List Act} {s : State}
    (hread : Along (step sym) ReadableStep State.init acts)
    (hrun : run (step sym) State.init acts = some s) : ByPin s := by
  have hinv : Wf s ∧ ByPin s := by
    refine run_invariant (I := fun s => Wf s ∧ ByPin s) ?_ ⟨wf_init, ?_⟩ hread hrun
    · intro s a t hs hread h
      exact ⟨hs.1.step h, byPin_step hs.1 hread hs.2 h⟩
    · intro w k v hpc
      cases hpc
  exact hinv.2

/-! ## Runs that keep to both -/

theorem AuthInv.authentic {s : State} (hs : AuthInv s) (hpin : ByPin s) : Authentic s where
  returned := hs.returned
  amount c hret := by
    have hlt := (hs.wf.returned c).1 hret
    obtain ⟨pad, hpad⟩ := Option.ne_none_iff_exists'.1
      ((hs.wf.pads c).2 (Nat.lt_of_lt_of_le hlt (Nat.le_add_right _ _)))
    exact ⟨pad, hpad, hs.wf.amount c pad hpad⟩
  approved w hpc := by
    obtain ⟨k, v, hcalls, hret⟩ := hs.wf.approved w hpc
    obtain rfl := hpin w k v hpc hcalls hret
    exact ⟨k, hcalls, hret, hs.returned _ _ hret (by decide)⟩

/-- **PIN authenticity**, for any number of workers and any interleaving in which no PIN is written
to the shared field during somebody else's call, and no released buffer is changed before it is
compared. -/
theorem authentic_run (sym : DecimalFormatSymbols) {acts : List Act} {s : State}
    (hown : Along (step sym) OwnWrite State.init acts)
    (hread : Along (step sym) ReadableStep State.init acts)
    (hrun : run (step sym) State.init acts = some s) : Authentic s :=
  (authInv_run hown hrun).authentic (byPin_run hread hrun)

theorem SoloInv.ownWrite {w₀ : Nat} {s : State} (hs : SoloInv w₀ s) (a : Act) : OwnWrite s a := by
  cases a with
  | worker w a => trivial
  | ui a =>
    cases a with
    | write =>
      intro c v hui hne w hin
      obtain rfl := hs.call_of_handling (congrArg UiPc.handling hui)
      have hw : w = w₀ := by
        by_contra hw
        rw [hs.alone w hw] at hin
        cases hin
      rw [hw]
    | _ => trivial

theorem ownWrite_of_solo (sym : DecimalFormatSymbols) {w₀ : Nat} {acts : List Act}
    (hsolo : ∀ a ∈ acts, Solo w₀ a) : Along (step sym) OwnWrite State.init acts :=
  Along.of_invariant (fun _ _ _ hs hsolo h => SoloInv.step hs hsolo h)
    (fun _ a hs _ => hs.ownWrite a) (soloInv_init w₀) (along_of_mem hsolo State.init)

/-- Nothing is compared before the last step, and that step finds what the call returned. -/
theorem readableStep_comparedRun (sym : DecimalFormatSymbols) {keys : List (Fin 10)} {u : State}
    (hrun : run (step sym) State.init (roubleRun keys) = some u)
    (hpc : u.pc 0 = .compare (keys.flatMap layoutLabels)) :
    Along (step sym) ReadableStep State.init (comparedRun keys) := by
  have hnone : ∀ a ∈ roubleRun keys, ∀ s, ReadableStep s a := by
    simp only [roubleRun, promptRun, okRun, returnRun, List.forall_mem_append,
      List.forall_mem_cons, List.forall_mem_map, List.not_mem_nil, false_imp_iff, implies_true,
      ReadableStep, and_self]
  have hfirst : Along (step sym) ReadableStep State.init (roubleRun keys) :=
    (along_of_mem hnone State.init).mono fun s a h => h s
  refine hfirst.append hrun (along_singleton ?_)
  intro v hv
  obtain rfl := Pc.compare.inj (hpc.symm.trans hv)
  exact intact_iff.2 rfl

/-- One rouble, approved by the PIN that was confirmed for it. -/
theorem authentic_compared : ∃ s,
    run (step symbolsEn) State.init (comparedRun [4, 3, 4, 3]) = some s ∧ s.pc 0 = .done true ∧
    s.confirmed ⟨0, 0⟩ = some (jstr "4343") ∧ Authentic s := by
  have hcompare : (run (step symbolsEn) State.init (roubleRun [4, 3, 4, 3])).map (fun s => s.pc 0) =
      some (.compare (([4, 3, 4, 3] : List (Fin 10)).flatMap layoutLabels)) := by decide +kernel
  obtain ⟨u, hu, hpc⟩ := Option.map_eq_some_iff.1 hcompare
  have hend : (run (step symbolsEn) State.init (comparedRun [4, 3, 4, 3])).map
      (fun s => (s.pc 0, s.confirmed ⟨0, 0⟩)) = some (.done true, some (jstr "4343")) := by
    decide +kernel
  obtain ⟨s, hrun, hs⟩ := Option.map_eq_some_iff.1 hend
  obtain ⟨hdone, hconf⟩ := Prod.mk.inj hs
  refine ⟨s, hrun, hdone, hconf, ?_⟩
  exact authentic_run symbolsEn (ownWrite_of_solo symbolsEn (solo_comparedRun _))
    (readableStep_comparedRun symbolsEn hu hpc) hrun

def hundred : JByteArray := ⟨[-97, 0x02, 0x06, 0x00, 0x00, 0x00, 0x01, 0x00, 0x00], by decide⟩

/-- The user leaves the first pinpad by back, starts a second transaction and enters a PIN there;
the `notifyAll` wakes the first worker. -/
def crossTalk (keys : List (Fin 10)) : List Act :=
  promptRun 0 hundred ++ [.ui (.back ⟨0, 0⟩), .ui (.deliver ⟨0, 0⟩)] ++
    promptRun 1 rouble ++ okRun ⟨1, 0⟩ keys ++ returnRun 0 ++
    [.worker 0 (.compare (encodeUtf (jstr "4343")))]

/-- The transaction over a hundred roubles is approved by the PIN typed for one rouble. -/
theorem not_authentic_crossTalk : ∃ s,
    run (step symbolsEn) State.init (crossTalk [4, 3, 4, 3]) = some s ∧
    s.returned ⟨0, 0⟩ = some (jstr "4343") ∧ s.confirmed ⟨0, 0⟩ = none ∧ s.pc 0 = .done true ∧
    ¬ Authentic s := by
  have hend : (run (step symbolsEn) State.init (crossTalk [4, 3, 4, 3])).map
      (fun s => (s.returned ⟨0, 0⟩, s.confirmed ⟨0, 0⟩, s.pc 0)) =
        some (some (jstr "4343"), none, .done true) := by decide +kernel
  obtain ⟨s, hrun, hs⟩ := Option.map_eq_some_iff.1 hend
  obtain ⟨hret, hrest⟩ := Prod.mk.inj hs
  obtain ⟨hconf, hpc⟩ := Prod.mk.inj hrest
  refine ⟨s, hrun, hret, hconf, hpc, fun h => ?_⟩
  have hown := h.returned _ _ hret (by decide)
  rw [hconf] at hown
  cases hown

/-- Whatever was typed, the released buffer has come to hold the PIN before it is compared. -/
def staleRun (keys : List (Fin 10)) : List Act :=
  roubleRun keys ++ [.worker 0 (.compare (encodeUtf (jstr "4343")))]

/-- Every PIN is written during its own call, and the transaction is approved by none. -/
theorem not_authentic_stale : ∃ s, Along (step symbolsEn) OwnWrite State.init (staleRun [1, 2]) ∧
    run (step symbolsEn) State.init (staleRun [1, 2]) = some s ∧
    s.returned ⟨0, 0⟩ = some (jstr "12") ∧ s.pc 0 = .done true ∧ ¬ Authentic s := by
  have hend : (run (step symbolsEn) State.init (staleRun [1, 2])).map
      (fun s => (s.returned ⟨0, 0⟩, s.pc 0, (s.workers 0).calls)) =
        some (some (jstr "12"), .done true, 1) := by decide +kernel
  obtain ⟨s, hrun, hs⟩ := Option.map_eq_some_iff.1 hend
  obtain ⟨hret, hrest⟩ := Prod.mk.inj hs
  obtain ⟨hpc, hcalls⟩ := Prod.mk.inj hrest
  have hown := ownWrite_of_solo symbolsEn (solo_compared [1, 2] (encodeUtf (jstr "4343")))
  refine ⟨s, hown, hrun, hret, hpc, fun h => ?_⟩
  obtain ⟨k, hk, hpin, -⟩ := h.approved 0 hpc
  obtain rfl : k = 0 := by omega
  cases hret.symm.trans hpin

end Fclient.Verify
