import Fclient.Verify.Approval

/-!
# Every transaction can happen

The converse of the refinement: `transaction` has no behaviour that the application lacks. Whatever
the user is going to enter at the three prompts, and whatever the released buffers are going to
hold, the threads can run so that a worker makes the calls of `transaction` with these very answers
(`exists_run_of_transaction`).
-/

namespace Fclient.Verify

open Base Native Client

/-- The digits that are entered at each prompt, and what its buffer holds once it is released. -/
structure Plan where
  digits : Nat → List (Fin 10)
  released : Nat → List UInt8
  length_le : ∀ k, (digits k).length ≤ 4

def Plan.prompts (plan : Plan) (k : Nat) : Prompt := ⟨pinOf (plan.digits k), plan.released k⟩

/-! ## The loop only sees the answers it asks for -/

theorem retryLoop_congr {amount : JString} {ptc n last : Nat} {prompts prompts' : Nat → Prompt}
    (h : retryLoop amount ptc prompts = (promptEvents amount ptc n, last))
    (heq : ∀ k < n, prompts k = prompts' k) :
    retryLoop amount ptc prompts' = (promptEvents amount ptc n, last) := by
  have hwrong : ∀ {j}, j ≤ n → Wrong prompts j → Wrong prompts' j := by
    intro j hj hw i hi
    rw [← heq i (by omega)]
    exact hw i hi
  rcases wrong_or_firstMatch prompts ptc with hw | ⟨j, hj, hw, hm⟩
  · rw [retryLoop_exhausted _ hw] at h
    obtain ⟨hevents, rfl⟩ := Prod.mk.inj h
    obtain rfl := promptEvents_inj hevents
    exact retryLoop_exhausted _ (hwrong (Nat.le_refl _) hw)
  · rw [retryLoop_matched _ hj ⟨hw, hm⟩] at h
    obtain ⟨hevents, rfl⟩ := Prod.mk.inj h
    obtain rfl := promptEvents_inj hevents
    refine retryLoop_matched _ hj ⟨hwrong (Nat.le_succ j) hw, ?_⟩
    rw [← heq j (Nat.lt_succ_self j)]
    exact hm

/-! ## Keeping to the plan -/

/-- What has been confirmed and compared so far is as planned. -/
structure Planned (plan : Plan) (w₀ : Nat) (acts : List Act) (s : State) : Prop where
  confirmed : ∀ k v, s.confirmed ⟨w₀, k⟩ = some v → v = pinOf (plan.digits k)
  compared : ∀ k released, (comparisons w₀ acts)[k]? = some released → released = plan.released k

section Planned

variable {sym : DecimalFormatSymbols} {plan : Plan} {acts : List Act} {s t : State} {w₀ : Nat}

/-- No statement of a worker confirms a PIN. -/
theorem WorkerStep.confirmed_of {w : Nat} {a : WorkerAct} (h : WorkerStep s w a t) {c : CallId}
    {v : JString} (hc : t.confirmed c = some v) : s.confirmed c = some v := by
  obtain ⟨-, -, -, ptc, hpads⟩ | ⟨-, hpads⟩ := h.pads_eq
  · by_cases he : c = s.call w
    · subst he
      rw [confirmed_of_pads (by rw [hpads, Function.update_self])] at hc
      cases hc
    · rwa [State.confirmed, hpads, Function.update_of_ne he] at hc
  · rwa [State.confirmed, hpads] at hc

theorem comparisons_clicks (w : Nat) (c : CallId) (cs : List Click) :
    comparisons w (cs.map fun k => .ui (.click c k)) = [] := by
  unfold comparisons
  rw [List.filterMap_map, List.filterMap_eq_nil_iff]
  intro k _
  rfl

theorem Planned.frame (h : Planned plan w₀ acts s) {more : List Act}
    (hconf : ∀ k v, t.confirmed ⟨w₀, k⟩ = some v → v = pinOf (plan.digits k))
    (hmore : comparisons w₀ more = []) : Planned plan w₀ (acts ++ more) t where
  confirmed := hconf
  compared := by
    have happend : comparisons w₀ (acts ++ more) = comparisons w₀ acts ++ comparisons w₀ more :=
      List.filterMap_append
    rw [happend, hmore, List.append_nil]
    exact h.compared

theorem Planned.worker_step (h : Planned plan w₀ acts s) {a : WorkerAct}
    (hstep : WorkerStep s w₀ a t)
    (hfinds : Finds (fun _ => plan.released (comparisons w₀ acts).length) s (.worker w₀ a)) :
    Planned plan w₀ (acts ++ [.worker w₀ a]) t := by
  have hconf : ∀ k v, t.confirmed ⟨w₀, k⟩ = some v → v = pinOf (plan.digits k) := by
    intro k v hc
    exact h.confirmed k v (hstep.confirmed_of hc)
  cases hstep with
  | matched hpc | mismatched hpc =>
    refine ⟨hconf, ?_⟩
    intro k released hk
    rw [comparisons_concat, comparisons_compare, List.getElem?_append] at hk
    split at hk
    · exact h.compared k released hk
    · rw [List.getElem?_singleton] at hk
      split at hk
      · cases hk
        rw [hfinds _ hpc, show k = (comparisons w₀ acts).length by omega]
      · cases hk
  | _ => exact h.frame hconf rfl

theorem Planned.step (h : Planned plan w₀ acts s) (hs : SoloInv w₀ s) {a : Act}
    (hsolo : Solo w₀ a)
    (hfinds : Finds (fun _ => plan.released (comparisons w₀ acts).length) s a)
    (hok : ∀ c, a ≠ .ui (.click c .ok)) (hstep : Client.step sym s a = some t) :
    Planned plan w₀ (acts ++ [a]) t := by
  cases a with
  | worker w a =>
    have hw := workerStep_cases hstep
    obtain rfl := hsolo.worker_eq
    exact h.worker_step hw hfinds
  | ui a =>
    refine h.frame ?_ (comparisons_ui w₀ a)
    intro k v hc
    have hu := uiStep_cases hstep
    exact h.confirmed k v (hu.confirmed_of hs (fun c e => hok c (congrArg Act.ui e)) hc)

/-- The user enters what is planned for the current call. -/
theorem Planned.typed (h : Planned plan w₀ acts s) (intent : Intent) (cs : List Click) :
    Planned plan w₀ (acts ++ cs.map fun k => .ui (.click (s.call w₀) k))
      (s.setPad (s.call w₀) ⟨intent, .finished (.ok (pinOf (plan.digits (s.call w₀).index)))⟩) := by
  refine h.frame ?_ (comparisons_clicks w₀ _ cs)
  intro k v hc
  by_cases hk : (⟨w₀, k⟩ : CallId) = s.call w₀
  · have hindex : k = (s.call w₀).index := congrArg CallId.index hk
    rw [hk, confirmed_of_pads (pads_setPad _ _)] at hc
    cases hc
    rw [hindex]
  · rw [State.confirmed, pads_setPad_ne (Ne.symm hk)] at hc
    exact h.confirmed k v hc

end Planned

/-! ## The whole transaction -/

/-- The run so far is one of the planned transaction. -/
structure Underway (sym : DecimalFormatSymbols) (plan : Plan) (w₀ : Nat) (trd : JByteArray)
    (stack : Fin 13 → UInt8) (acts : List Act) (s : State) : Prop where
  solo : ∀ a ∈ acts, Solo w₀ a
  run : run (step sym) State.init acts = some s
  planned : Planned plan w₀ acts s
  ready : Ready w₀ s
  started : .worker w₀ (.start trd stack) ∈ acts
  follows : Follows acts s w₀ trd stack

section Underway

variable {sym : DecimalFormatSymbols} {plan : Plan} {w₀ : Nat} {trd : JByteArray}
  {stack : Fin 13 → UInt8} {acts : List Act} {s t : State}

theorem Underway.append (h : Underway sym plan w₀ trd stack acts s) {more : List Act}
    (hsolo : ∀ a ∈ more, Solo w₀ a) (hmore : Base.run (step sym) s more = some t)
    (hplanned : Planned plan w₀ (acts ++ more) t) :
    Underway sym plan w₀ trd stack (acts ++ more) t where
  solo := List.forall_mem_append.2 ⟨h.solo, hsolo⟩
  run := run_trans h.run hmore
  planned := hplanned
  ready := h.ready.run (along_of_mem hsolo s) hmore
  started := List.mem_append_left _ h.started
  follows := h.follows.run h.run hmore

/-- The plan can be followed one step or one pinpad further. -/
theorem Underway.next (h : Underway sym plan w₀ trd stack acts s)
    (hrunning : ¬ ∃ r, s.pc w₀ = .done r) :
    ∃ more t, Base.run (step sym) s more = some t ∧
      Underway sym plan w₀ trd stack (acts ++ more) t ∧ distance w₀ t < distance w₀ s := by
  rcases h.ready.closer h.run hrunning (fun _ => plan.released (comparisons w₀ acts).length)
    (plan.length_le (s.call w₀).index) with
    ⟨intent, cs, hrun, hlt⟩ | ⟨a, t, hsolo, hfinds, hok, hstep, hlt⟩
  · refine ⟨_, _, hrun, h.append ?_ hrun (h.planned.typed intent cs), hlt⟩
    intro a ha
    obtain ⟨k, -, rfl⟩ := List.mem_map.1 ha
    trivial
  · have hrun : Base.run (step sym) s [a] = some t := by rw [run_singleton, hstep]
    refine ⟨[a], t, hrun, h.append ?_ hrun ?_, hlt⟩
    · intro a' ha'
      rw [List.mem_singleton.1 ha']
      exact hsolo
    · exact h.planned.step h.ready.solo hsolo hfinds hok hstep

theorem exists_underway (sym : DecimalFormatSymbols) (plan : Plan) (w₀ : Nat)
    (hrecord : IsRecord trd) (stack : Fin 13 → UInt8) :
    ∃ s, Underway sym plan w₀ trd stack [.worker w₀ (.start trd stack)] s := by
  have hm := (malformed_eq_false trd).2 hrecord.1
  have hsolo : ∀ a ∈ [Act.worker w₀ (.start trd stack)], Solo w₀ a := by
    intro a ha
    rw [List.mem_singleton.1 ha]
    rfl
  have hmem : ∀ trd' stack', .worker w₀ (.start trd' stack') ∈ [Act.worker w₀ (.start trd stack)] →
      IsRecord trd' := by
    intro trd' stack' h
    cases List.mem_singleton.1 h
    exact hrecord
  have hrun : run (step sym) State.init [.worker w₀ (.start trd stack)] =
      some (State.init.setWorker w₀ { State.init.workers w₀ with
        amount := amountString stack trd.elements, ptc := 3, pc := .head }) := by
    rw [run_singleton]
    simp [step, workerStep, State.init, hm]
  refine ⟨_, hsolo, hrun, ⟨?_, ?_⟩, ready_run hsolo hrun hmem ?_, List.mem_singleton_self _,
    @Follows.start [] State.init _ w₀ trd stack hrecord.1 rfl rfl (workers_setWorker _)⟩
  · intro k v hc
    cases hc
  · intro k released hk
    cases hk
  · rw [pc_setWorker]
    exact Pc.noConfusion

/-- The calls of the worker have been answered as planned. -/
theorem Underway.promptsOf_eq (h : Underway sym plan w₀ trd stack acts s) {r : Bool}
    (hdone : s.pc w₀ = .done r) {k : Nat} (hk : k < (s.workers w₀).calls) :
    promptsOf acts s w₀ k = plan.prompts k := by
  obtain ⟨v, hret⟩ := Option.ne_none_iff_exists'.1 ((h.ready.solo.wf.returned ⟨w₀, k⟩).2 hk)
  have hpin := h.planned.confirmed k v (h.ready.solo.confirmed_of_returned hret)
  have hlen : (comparisons w₀ acts).length = (s.workers w₀).calls := h.follows.comparisons_of hdone
  have hget := List.getElem?_eq_getElem (hlen ▸ hk)
  have hreleased := h.planned.compared k _ hget
  rw [promptsOf, Plan.prompts, hret, Option.getD_some, hpin, List.getD_eq_getElem?_getD, hget,
    Option.getD_some, hreleased]

end Underway

/-- **Completeness.** For every record of the grammar, all PINs that the user may enter at the
prompts and all contents of the released buffers, some run of the application makes the calls of
`transaction` with these answers. -/
theorem exists_run_of_transaction (sym : DecimalFormatSymbols) (plan : Plan) (w₀ : Nat)
    {trd : JByteArray} (hrecord : IsRecord trd) (stack : Fin 13 → UInt8) :
    ∃ acts s r, (∀ a ∈ acts, Solo w₀ a) ∧ .worker w₀ (.start trd stack) ∈ acts ∧
      run (step sym) State.init acts = some s ∧ s.pc w₀ = .done r ∧
      (∀ k < (s.workers w₀).calls, promptsOf acts s w₀ k = plan.prompts k) ∧
      transaction trd ⟨stack, plan.prompts⟩ = (true, callsBefore ++
        promptEvents (amountString stack trd.elements) 3 (s.workers w₀).calls ++
          callsAfter r) := by
  obtain ⟨s₁, hs₁⟩ := exists_underway sym plan w₀ hrecord stack
  have hnext : ∀ s, (∃ acts, Underway sym plan w₀ trd stack acts s) →
      (¬ ∃ r, s.pc w₀ = .done r) → ∃ more t, Along (step sym) (fun _ _ => True) s more ∧
        run (step sym) s more = some t ∧ (∃ acts, Underway sym plan w₀ trd stack acts t) ∧
          distance w₀ t < distance w₀ s := by
    rintro s ⟨acts, hs⟩ hrunning
    obtain ⟨more, t, hmore, ht, hlt⟩ := hs.next hrunning
    exact ⟨more, t, along_of_forall (fun _ _ => trivial) more s, hmore, ⟨_, ht⟩, hlt⟩
  obtain ⟨-, s, -, -, ⟨acts, hs⟩, r, hdone⟩ := exists_run_along _ hnext ⟨_, hs₁⟩
  obtain ⟨last, hloop, rfl⟩ := hs.follows.progress_of hdone
  have hprompts : ∀ k < (s.workers w₀).calls, promptsOf acts s w₀ k = plan.prompts k :=
    fun k hk => hs.promptsOf_eq hdone hk
  have hplan := retryLoop_congr hloop hprompts
  refine ⟨acts, s, _, hs.solo, hs.started, hs.run, hdone, hprompts, ?_⟩
  rw [transaction_accepted hs.follows.accepted, ← hs.follows.amount]
  simp only [hplan]

/-- Another PIN is entered first, and the buffers stay readable. -/
def secondTry (wrong pin : List (Fin 10)) (hwrong : wrong.length ≤ 4) (hpin : pin.length ≤ 4) :
    Plan where
  digits k := if k = 0 then wrong else pin
  released k := encodeUtf (pinOf (if k = 0 then wrong else pin))
  length_le k := by
    split
    · exact hwrong
    · exact hpin

theorem exists_run_of_transaction_rouble : ∃ acts s r, (∀ a ∈ acts, Solo 0 a) ∧
    .worker 0 (.start rouble fun _ => 0) ∈ acts ∧
    run (step symbolsEn) State.init acts = some s ∧ s.pc 0 = .done r ∧
    (∀ k < (s.workers 0).calls, promptsOf acts s 0 k =
      (secondTry [1, 2] [4, 3, 4, 3] (by decide) (by decide)).prompts k) ∧
    transaction rouble
        ⟨fun _ => 0, (secondTry [1, 2] [4, 3, 4, 3] (by decide) (by decide)).prompts⟩ =
      (true, callsBefore ++
        promptEvents (amountString (fun _ => 0) rouble.elements) 3 (s.workers 0).calls ++
          callsAfter r) :=
  exists_run_of_transaction symbolsEn (secondTry [1, 2] [4, 3, 4, 3] (by decide) (by decide)) 0
    isRecord_rouble fun _ => 0

end Fclient.Verify
