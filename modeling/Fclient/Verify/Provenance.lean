import Fclient.Verify.Authenticity
import Fclient.Verify.History

/-!
# Where a PIN comes from

Every string that a call of `enterPIN` returns is empty or was typed into one of the pinpads of the
run, of this call or of another one (`returned_spelled`), and a transaction is only approved after
somebody typed `4343` (`approved_spelled`). When transactions do not overlap it is one of the call's
own pinpads (`returned_own`), and a transaction is approved exactly when `4343` was typed into one
of its own and confirmed (`approved_iff_spelled`).
-/

namespace Fclient.Verify

open Base Native Client

/-! ## Returned strings -/

/-- What is in the field `pin`, or has been returned from it, was confirmed in some pinpad. -/
structure Traced (s : State) : Prop where
  pin : ∀ v, s.pin = some v → v ≠ [] → ∃ c, s.confirmed c = some v
  returned : ∀ c v, s.returned c = some v → v ≠ [] → ∃ c', s.confirmed c' = some v

section Traced

variable {sym : DecimalFormatSymbols} {acts : List Act} {s t : State}

theorem Traced.worker_step {w : Nat} {a : WorkerAct} (hs : Traced s) (hwf : Wf s)
    (h : WorkerStep s w a t) : Traced t where
  pin v hv hne := by
    rcases h.pin_eq with hpin | ⟨-, hpin⟩
    · obtain ⟨c, hc⟩ := hs.pin v (hpin ▸ hv) hne
      exact ⟨c, h.confirmed hwf hc⟩
    · cases hpin.symm.trans hv
      exact absurd rfl hne
  returned c v hret hne := by
    have hold : (∃ c', s.confirmed c' = some v) → ∃ c', t.confirmed c' = some v :=
      fun ⟨c', hc⟩ => ⟨c', h.confirmed hwf hc⟩
    obtain ⟨v', -, hpin, -, hreturned⟩ | ⟨-, hreturned⟩ := h.returned_eq
    · rw [hreturned] at hret
      by_cases hc : c = s.call w
      · rw [hc, Function.update_self] at hret
        cases hret
        exact hold (hs.pin v hpin hne)
      · rw [Function.update_of_ne hc] at hret
        exact hold (hs.returned c v hret hne)
    · exact hold (hs.returned c v (hreturned ▸ hret) hne)

/-- Of the UI thread, only `onActivityResult` writes to the field `pin`. -/
theorem UiStep.pin_eq {a : UiAct} (h : UiStep sym s a t) :
    t.pin = s.pin ∨ ∃ c v, s.ui = .write c v ∧ t.pin = some v := by
  cases h with
  | write hui => exact .inr ⟨_, _, hui, rfl⟩
  | _ => exact .inl rfl

theorem Traced.ui_step {a : UiAct} (hs : Traced s) (hwf : Wf s) (h : UiStep sym s a t) :
    Traced t where
  pin v hv hne := by
    have hconf : ∃ c, s.confirmed c = some v := by
      obtain hpin | ⟨c, v', hui, hpin⟩ := h.pin_eq
      · exact hs.pin v (hpin ▸ hv) hne
      · cases hpin.symm.trans hv
        obtain ⟨intent, hpad⟩ := hwf.handling c v (congrArg UiPc.handling hui)
        exact ⟨c, confirmed_of_pads hpad⟩
    obtain ⟨c, hc⟩ := hconf
    exact ⟨c, h.confirmed hwf hc⟩
  returned c v hret hne := by
    obtain ⟨c', hc⟩ := hs.returned c v (h.returned_eq ▸ hret) hne
    exact ⟨c', h.confirmed hwf hc⟩

theorem traced_init : Traced State.init where
  pin _ h := by cases h
  returned _ _ h := by cases h

theorem traced_run (hrun : run (step sym) State.init acts = some s) : Traced s := by
  refine run_history (I := fun _ s => Traced s) traced_init ?_ hrun
  intro acts s a t hs hold hstep
  have hwf := wf_run hs
  cases a with
  | worker w a => exact hold.worker_step hwf (workerStep_cases hstep)
  | ui a => exact hold.ui_step hwf (uiStep_cases hstep)

end Traced

/-- **Provenance.** Whatever the interleaving, a string that a call of `enterPIN` returns is empty,
or what the clicks on one pinpad of the run, up to its `OK`, have entered. -/
theorem returned_spelled {sym : DecimalFormatSymbols} {acts : List Act} {s : State}
    (hrun : run (step sym) State.init acts = some s) {c : CallId} {v : JString}
    (hret : s.returned c = some v) : v = [] ∨ ∃ c', Spelled acts c' v := by
  by_cases hne : v = []
  · exact .inl hne
  · obtain ⟨c', hc⟩ := (traced_run hrun).returned c v hret hne
    exact .inr ⟨c', spelled_of_confirmed hrun hc⟩

theorem returned_spelled_rouble : ∃ s,
    run (step symbolsEn) State.init (roubleRun [4, 3, 4, 3]) = some s ∧
    s.returned ⟨0, 0⟩ = some (jstr "4343") ∧
    (jstr "4343" = [] ∨ ∃ c, Spelled (roubleRun [4, 3, 4, 3]) c (jstr "4343")) := by
  have hret : (run (step symbolsEn) State.init (roubleRun [4, 3, 4, 3])).map
      (fun s => s.returned ⟨0, 0⟩) = some (some (jstr "4343")) := by decide +kernel
  obtain ⟨s, hrun, hret⟩ := Option.map_eq_some_iff.1 hret
  exact ⟨s, hrun, hret, returned_spelled hrun hret⟩

/-! ## Verdicts -/

/-- Every buffer held the string it was made from when it was compared. -/
def ReadableRun (acts : List Act) (s : State) : Prop :=
  ∀ w k released, (comparisons w acts)[k]? = some released →
    Intact ⟨(promptsOf acts s w k).pin, released⟩

section Verdict

variable {sym : DecimalFormatSymbols} {acts : List Act} {s : State} {w : Nat} {r : Bool}

/-- The prompts that were not made are not answered by the PIN. -/
theorem pinMatches_promptsOf (hread : ReadableRun acts s)
    (hlen : (comparisons w acts).length = (s.workers w).calls)
    (hnone : ∀ k, (s.workers w).calls ≤ k → s.returned ⟨w, k⟩ = none) (k : Nat) :
    pinMatches (pinBuffer (promptsOf acts s w k).pin (promptsOf acts s w k).released) = true ↔
      s.returned ⟨w, k⟩ = some (jstr "4343") := by
  by_cases hk : k < (s.workers w).calls
  · have hget := List.getElem?_eq_getElem (hlen ▸ hk)
    have hreleased : (promptsOf acts s w k).released = (comparisons w acts)[k] := by
      rw [promptsOf, List.getD_eq_getElem?_getD, hget, Option.getD_some]
    rw [hreleased, pinMatches_intact (hread w k _ hget)]
    cases hret : s.returned ⟨w, k⟩ with
    | none => simp [promptsOf, hret, jstr]
    | some v => simp [promptsOf, hret]
  · have hret := hnone k (Nat.le_of_not_lt hk)
    have hreleased : (comparisons w acts).getD k [] = [] :=
      List.getD_eq_default _ _ (hlen ▸ Nat.le_of_not_lt hk)
    rw [hret, promptsOf, hret, hreleased]
    exact iff_of_false (by decide) (by simp)

theorem length_promptEvents (amount : JString) (ptc n : Nat) :
    (promptEvents amount ptc n).length = n * 3 := by
  simp [promptEvents]

theorem promptEvents_inj {amount : JString} {ptc n m : Nat}
    (h : promptEvents amount ptc n = promptEvents amount ptc m) : n = m := by
  have hlen := congrArg List.length h
  rw [length_promptEvents, length_promptEvents] at hlen
  exact Nat.eq_of_mul_eq_mul_right (Nat.succ_pos 2) hlen

/-- A transaction is approved exactly when one of its calls has returned `4343`. -/
theorem done_iff_returned (hrun : run (step sym) State.init acts = some s)
    (hread : ReadableRun acts s) (hdone : s.pc w = .done r) :
    r = true ↔ ∃ k, s.returned ⟨w, k⟩ = some (jstr "4343") := by
  have hwf := wf_run hrun
  cases started_run hrun w with
  | idle hpc | rejected hpc => cases hpc.symm.trans hdone
  | follows hmem hf =>
    have hnone : ∀ k, (s.workers w).calls ≤ k → s.returned ⟨w, k⟩ = none := by
      intro k hk
      by_contra hne
      exact absurd ((hwf.returned ⟨w, k⟩).1 hne) (Nat.not_lt.2 hk)
    have hmatch := pinMatches_promptsOf hread (hf.comparisons_of hdone) hnone
    obtain ⟨last, hloop, hr⟩ := hf.progress_of hdone
    rw [hr, decide_eq_true_iff]
    rcases wrong_or_firstMatch (promptsOf acts s w) 3 with hwrong | ⟨j, hj, hfirst⟩
    · rw [retryLoop_exhausted _ hwrong] at hloop
      obtain ⟨hevents, rfl⟩ := Prod.mk.inj hloop
      refine iff_of_false (Nat.lt_irrefl 0) ?_
      rintro ⟨k, hret⟩
      -- three prompts were made, so this is one of them
      have hk : k < (s.workers w).calls := (hwf.returned ⟨w, k⟩).1 (by simp [hret])
      have hcalls := promptEvents_inj hevents
      have hm := (hmatch k).2 hret
      rw [hwrong k (hcalls ▸ hk)] at hm
      cases hm
    · rw [retryLoop_matched _ hj hfirst] at hloop
      obtain ⟨-, rfl⟩ := Prod.mk.inj hloop
      exact iff_of_true (Nat.sub_pos_of_lt hj) ⟨j, (hmatch j).1 hfirst.2⟩

end Verdict

/-- **No approval without the PIN.** As long as released buffers stay readable, a transaction of any
run is only approved when `4343` was typed into one of its pinpads and confirmed. -/
theorem approved_spelled {sym : DecimalFormatSymbols} {acts : List Act} {s : State} {w : Nat}
    (hrun : run (step sym) State.init acts = some s) (hread : ReadableRun acts s)
    (hdone : s.pc w = .done true) : ∃ c, Spelled acts c (jstr "4343") := by
  obtain ⟨k, hret⟩ := (done_iff_returned hrun hread hdone).1 rfl
  obtain ⟨c, hc⟩ := (traced_run hrun).returned _ _ hret (by decide)
  exact ⟨c, spelled_of_confirmed hrun hc⟩

theorem comparisons_comparedRun (w : Nat) (keys : List (Fin 10)) :
    comparisons w (comparedRun keys) =
      if w = 0 then [encodeUtf (keys.flatMap layoutLabels)] else [] := by
  have hkeys : comparisons w (keys.map fun k => .ui (.click ⟨0, 0⟩ (.key k))) = [] := by
    unfold comparisons
    rw [List.filterMap_map, List.filterMap_eq_nil_iff]
    exact fun _ _ => rfl
  have happend : ∀ acts acts', comparisons w (acts ++ acts') =
      comparisons w acts ++ comparisons w acts' := fun _ _ => List.filterMap_append
  rw [comparedRun, roubleRun, okRun, happend, happend, happend, happend, hkeys]
  by_cases hw : w = 0
  · subst hw
    rw [comparisons_compare, if_pos rfl]
    rfl
  · rw [comparisons_ne (Ne.symm hw), if_neg hw]
    rfl

theorem readable_comparedRun {s : State} {keys : List (Fin 10)}
    (hret : s.returned ⟨0, 0⟩ = some (keys.flatMap layoutLabels)) :
    ReadableRun (comparedRun keys) s := by
  intro w k released h
  rw [comparisons_comparedRun] at h
  split at h
  · rename_i hw
    subst hw
    cases k with
    | zero =>
      obtain rfl := Option.some.inj h
      rw [promptsOf, hret]
      exact intact_iff.2 rfl
    | succ k => cases h
  · cases h

theorem run_comparedRun : ∃ s,
    run (step symbolsEn) State.init (comparedRun [4, 3, 4, 3]) = some s ∧ s.pc 0 = .done true ∧
      ReadableRun (comparedRun [4, 3, 4, 3]) s := by
  have hend : (run (step symbolsEn) State.init (comparedRun [4, 3, 4, 3])).map
      (fun s => (s.returned ⟨0, 0⟩, s.pc 0)) =
        some (some (([4, 3, 4, 3] : List (Fin 10)).flatMap layoutLabels), .done true) := by
    decide +kernel
  obtain ⟨s, hrun, hs⟩ := Option.map_eq_some_iff.1 hend
  obtain ⟨hret, hdone⟩ := Prod.mk.inj hs
  exact ⟨s, hrun, hdone, readable_comparedRun hret⟩

/-! ## Transactions that do not overlap -/

section Serial

variable {sym : DecimalFormatSymbols} {acts : List Act} {s : State}

theorem SerialInv.spelled_of_returned (hs : SerialInv s)
    (hrun : run (Client.step sym) State.init acts = some s) {c : CallId} {v : JString}
    (hret : s.returned c = some v) : Spelled acts c v :=
  spelled_of_confirmed hrun (hs.confirmed_of_returned hret)

/-- A worker that has reported its result has returned from all its pinpads. -/
theorem returned_of_spelled (hrun : run (step sym) State.init acts = some s) {w k : Nat} {r : Bool}
    (hdone : s.pc w = .done r) {v : JString} (hspelled : Spelled acts ⟨w, k⟩ v) :
    ∃ v', s.returned ⟨w, k⟩ = some v' := by
  obtain ⟨rnd, clicks, -, hclicks, -⟩ := hspelled
  cases hpad : s.pads ⟨w, k⟩ with
  | none =>
    have hist := history_run hrun ⟨w, k⟩
    rw [hpad] at hist
    have hnil := hclicks.symm.trans hist.2
    simp at hnil
  | some pad =>
    rcases (wf_run hrun).pad_call hpad with hret | ⟨-, hl⟩
    · exact Option.ne_none_iff_exists'.1 hret
    · rw [hdone] at hl
      cases hl

end Serial

/-- **Each call has its own PIN**, in every run of transactions that do not overlap. -/
theorem returned_own {sym : DecimalFormatSymbols} {acts : List Act} {s : State}
    (hserial : Along (step sym) Serial State.init acts)
    (hrun : run (step sym) State.init acts = some s) {c : CallId} {v : JString}
    (hret : s.returned c = some v) : Spelled acts c v :=
  (serialInv_run hserial hrun).spelled_of_returned hrun hret

/-- The next worker is started for a hundred roubles, and its first call returns. -/
def hundredRun (keys : List (Fin 10)) : List Act :=
  promptRun 1 hundred ++ okRun ⟨1, 0⟩ keys ++ returnRun 1

theorem solo_hundredRun (keys : List (Fin 10)) : ∀ a ∈ hundredRun keys, Solo 1 a := by
  simp only [hundredRun, promptRun, okRun, returnRun, List.forall_mem_append, List.forall_mem_cons,
    List.forall_mem_map, List.not_mem_nil, false_imp_iff, implies_true, Solo, and_self]

/-- One rouble with the PIN, then a hundred with another. -/
theorem returned_own_hundred : ∃ s,
    run (step symbolsEn) State.init (comparedRun [4, 3, 4, 3] ++ hundredRun [1, 2]) = some s ∧
    s.returned ⟨1, 0⟩ = some (jstr "12") ∧
    Spelled (comparedRun [4, 3, 4, 3] ++ hundredRun [1, 2]) ⟨1, 0⟩ (jstr "12") := by
  obtain ⟨u, hu, hdone, -⟩ := run_comparedRun
  have hidle : ∀ w, w ≠ 1 → Pc.busy (u.pc w) = false := by
    intro w _
    by_cases hw : w = 0
    · rw [hw, hdone]
      rfl
    · rw [(soloInv_run (solo_comparedRun _) hu).alone w hw]
      rfl
  have hserial : Along (step symbolsEn) Serial State.init
      (comparedRun [4, 3, 4, 3] ++ hundredRun [1, 2]) :=
    (serial_of_solo (fun _ _ => rfl) (solo_comparedRun _)).append hu
      (serial_of_solo hidle (solo_hundredRun _))
  have hret : (run (step symbolsEn) State.init
      (comparedRun [4, 3, 4, 3] ++ hundredRun [1, 2])).map (fun s => s.returned ⟨1, 0⟩) =
        some (some (jstr "12")) := by decide +kernel
  obtain ⟨s, hrun, hret⟩ := Option.map_eq_some_iff.1 hret
  exact ⟨s, hrun, hret, returned_own hserial hrun hret⟩

/-- **The verdict of each transaction**, when they do not overlap and released buffers stay as they
are: approved exactly when `4343` was typed into one of its own pinpads and confirmed. -/
theorem approved_iff_spelled {sym : DecimalFormatSymbols} {acts : List Act} {s : State} {w : Nat}
    {r : Bool} (hserial : Along (step sym) Serial State.init acts)
    (hrun : run (step sym) State.init acts = some s) (hread : ReadableRun acts s)
    (hdone : s.pc w = .done r) : r = true ↔ ∃ k, Spelled acts ⟨w, k⟩ (jstr "4343") := by
  have hs := serialInv_run hserial hrun
  rw [done_iff_returned hrun hread hdone]
  constructor
  · rintro ⟨k, hret⟩
    exact ⟨k, hs.spelled_of_returned hrun hret⟩
  · rintro ⟨k, hspelled⟩
    obtain ⟨v, hret⟩ := returned_of_spelled hrun hdone hspelled
    refine ⟨k, ?_⟩
    rw [hret, hspelled.unique (hs.spelled_of_returned hrun hret)]

theorem approved_iff_spelled_rouble : ∃ s,
    run (step symbolsEn) State.init (comparedRun [4, 3, 4, 3]) = some s ∧ s.pc 0 = .done true ∧
    ∃ k, Spelled (comparedRun [4, 3, 4, 3]) ⟨0, k⟩ (jstr "4343") := by
  obtain ⟨s, hrun, hdone, hread⟩ := run_comparedRun
  have hserial : Along (step symbolsEn) Serial State.init (comparedRun [4, 3, 4, 3]) :=
    serial_of_solo (fun _ _ => rfl) (solo_comparedRun _)
  exact ⟨s, hrun, hdone, (approved_iff_spelled hserial hrun hread hdone).1 rfl⟩

end Fclient.Verify
