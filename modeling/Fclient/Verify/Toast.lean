import Fclient.Base.Outbox
import Fclient.Client.Toast
import Fclient.Verify.PageTitle
import Fclient.Verify.Provenance

/-!
# What the toasts say

Every transaction that is finished and every request that got a page has handed over its toast once,
and there are no other toasts, whatever the interleaving of the workers, the requests and the UI
thread (`count_toast`). The texts of different reports differ (`text_injective`), so no page can
fake the result of a transaction: `TRANSACTION COMPLETE` is only shown after somebody typed the PIN
(`complete_spelled`). A warning is shown exactly for the pages with the title of the portal
(`warned_iff`).
-/

namespace Fclient.Verify

open Base Native Client

/-! ## The texts -/

theorem getLast?_text (r : Runnable) : r.text.getLast? = match r with
    | .transactionResult true => some 0x45
    | .transactionResult false => some 0x65
    | .portal _ => some 0x29
    | .other _ => some 0x442 := by
  cases r with
  | transactionResult result => cases result <;> rfl
  | portal title | other title =>
    rw [Runnable.text, List.getLast?_append]
    rfl

/-- The last character tells who made the toast, and the rest is the title. -/
theorem text_injective : Function.Injective Runnable.text := by
  intro r r' h
  have hlast := congrArg List.getLast? h
  rw [getLast?_text, getLast?_text] at hlast
  cases r with
  | transactionResult result =>
    cases r' with
    | transactionResult result' => cases result <;> cases result' <;> simp at hlast ⊢
    | portal | other => cases result <;> simp at hlast
  | portal title =>
    cases r' with
    | portal title' => rw [List.append_cancel_right h]
    | transactionResult result' => cases result' <;> simp at hlast
    | other => simp at hlast
  | other title =>
    cases r' with
    | other title' => rw [List.append_cancel_right h]
    | transactionResult result' => cases result' <;> simp at hlast
    | portal => simp at hlast

/-! ## What a step can do -/

inductive MainStep (sym : DecimalFormatSymbols) (s : MainState) : MainAct → MainState → Prop
  | worker {w a t} (h : WorkerStep s.session w a t) :
    MainStep sym s (.session (.worker w a))
      { s with session := t, queue := s.queue ++ reported t (.worker w a) }
  | ui {a t} (h : UiStep sym s.session a t) :
    MainStep sym s (.session (.ui a)) { s with session := t }
  | button (hui : s.session.ui = .idle) :
    MainStep sym s .onButtonClick { s with requests := s.requests ++ [.clicked] }
  | start {i} (hi : s.requests[i]? = some .clicked) :
    MainStep sym s (.http i .start) { s with requests := s.requests.set i .fetching }
  | respond {i html} (hi : s.requests[i]? = some .fetching) :
    MainStep sym s (.http i (.respond html)) { s with requests := s.requests.set i (.fetched html) }
  | fail {i} (hi : s.requests[i]? = some .fetching) :
    MainStep sym s (.http i .fail) { s with requests := s.requests.set i .failed }
  | report {i html} (hi : s.requests[i]? = some (.fetched html)) :
    MainStep sym s (.http i .report)
      { s with requests := s.requests.set i (.reported (getPageTitle html))
               queue := s.queue ++ [titleRunnable (getPageTitle html)] }
  | toast {r queue} (hui : s.session.ui = .idle) (hqueue : s.queue = r :: queue) :
    MainStep sym s .toast { s with queue := queue, toasts := s.toasts ++ [r.text] }

theorem mainStep_cases {sym : DecimalFormatSymbols} {s t : MainState} {a : MainAct}
    (h : mainStep sym s a = some t) : MainStep sym s a t := by
  cases a with
  | session a =>
    obtain ⟨u, hu, rfl⟩ := Option.map_eq_some_iff.1 h
    cases a with
    | worker w a => exact .worker (workerStep_cases hu)
    | ui a =>
      have hqueue : s.queue ++ reported u (.ui a) = s.queue := List.append_nil _
      rw [hqueue]
      exact .ui (uiStep_cases hu)
  | onButtonClick =>
    simp only [mainStep] at h
    split at h <;> cases h
    exact .button ‹_›
  | http i a =>
    obtain ⟨pc, hi, h⟩ := Option.bind_eq_some_iff.1 h
    obtain ⟨⟨pc', posts⟩, hstep, rfl⟩ := Option.map_eq_some_iff.1 h
    unfold HttpPc.step at hstep
    split at hstep <;> cases hstep
    · simp only [List.append_nil]
      exact .start hi
    · simp only [List.append_nil]
      exact .respond hi
    · simp only [List.append_nil]
      exact .fail hi
    · exact .report hi
  | toast =>
    simp only [mainStep] at h
    split at h <;> cases h
    exact .toast ‹_› ‹_›

/-! ## The transactions -/

def sessionActs (acts : List MainAct) : List Act :=
  acts.filterMap fun a => match a with
    | .session a => some a
    | _ => none

theorem sessionActs_concat (acts : List MainAct) (a : MainAct) :
    sessionActs (acts ++ [a]) = sessionActs acts ++ sessionActs [a] :=
  List.filterMap_append

/-- The requests and the toasts have no influence on the transactions. -/
theorem session_run {sym : DecimalFormatSymbols} {acts : List MainAct} {s : MainState}
    (hrun : run (mainStep sym) MainState.init acts = some s) :
    run (step sym) State.init (sessionActs acts) = some s.session := by
  refine run_history (I := fun acts s =>
    run (step sym) State.init (sessionActs acts) = some s.session) rfl ?_ hrun
  intro acts t a u _ hold hstep
  rw [sessionActs_concat]
  cases a with
  | session a =>
    obtain ⟨v, hv, rfl⟩ := Option.map_eq_some_iff.1 hstep
    exact run_concat hold hv
  | onButtonClick | http | toast =>
    have hnil : u.session = t.session := by cases mainStep_cases hstep <;> rfl
    rw [hnil]
    exact (List.append_nil _).symm ▸ hold

/-! ## Who has reported what -/

inductive Source
  | transaction (w : Nat)
  | request (i : Nat)
  deriving DecidableEq

def Reported (s : MainState) : Source → Runnable → Prop
  | .transaction w, r => ∃ result, s.session.pc w = .done result ∧ r = .transactionResult result
  | .request i, r => ∃ title, s.requests[i]? = some (.reported title) ∧ r = titleRunnable title

/-- The log of the reports has led to the toasts that were shown and those that are waiting. -/
structure Told (s : MainState) (log : List (Source × Runnable)) : Prop where
  posted : Posted (Reported s) log
  texts : (log.map Prod.snd).map Runnable.text = s.toasts ++ s.queue.map Runnable.text

section Told

variable {sym : DecimalFormatSymbols} {s t : MainState} {log : List (Source × Runnable)}

theorem told_init : Told MainState.init [] where
  posted := Posted.nil fun i b => by
    cases i <;> simp [Reported, MainState.init, State.init, State.pc]
  texts := rfl

theorem Told.frame (h : Told s log) (heq : ∀ i r, Reported t i r ↔ Reported s i r)
    (htoasts : t.toasts = s.toasts) (hqueue : t.queue = s.queue) : Told t log where
  posted := h.posted.frame heq
  texts := by rw [h.texts, htoasts, hqueue]

theorem Told.post (h : Told s log) {i : Source} {r : Runnable} (hnew : ∀ r', ¬ Reported s i r')
    (heq : ∀ j r', Reported t j r' ↔ Reported s j r' ∨ j = i ∧ r' = r)
    (htoasts : t.toasts = s.toasts) (hqueue : t.queue = s.queue ++ [r]) :
    Told t (log ++ [(i, r)]) where
  posted := h.posted.post hnew heq
  texts := by
    rw [List.map_append, List.map_append, h.texts, htoasts, hqueue, List.map_append,
      List.append_assoc]
    rfl

theorem WorkerStep.pc_ne_done {u v : State} {w : Nat} {a : WorkerAct} (h : WorkerStep u w a v)
    (result : Bool) : u.pc w ≠ .done result := by
  intro hdone
  cases h <;> simp_all

theorem told_worker {w : Nat} {a : WorkerAct} {u : State} (h : Told s log)
    (hstep : WorkerStep s.session w a u) : ∃ log', Told
      { s with session := u, queue := s.queue ++ reported u (.worker w a) } log' := by
  by_cases hdone : ∃ result, u.pc w = .done result
  · obtain ⟨result, hpc⟩ := hdone
    have hqueue : reported u (.worker w a) = [.transactionResult result] := by
      simp only [reported, hpc]
    refine ⟨_, h.post (i := .transaction w) (r := .transactionResult result) ?_ ?_ rfl
      (congrArg _ hqueue)⟩
    · rintro r' ⟨result', hold, -⟩
      exact hstep.pc_ne_done result' hold
    · intro j r'
      cases j with
      | request i => simp [Reported]
      | transaction w' =>
        by_cases hw : w' = w
        · subst hw
          simp [Reported, hpc, hstep.pc_ne_done]
        · simp [Reported, hstep.pc_ne hw, hw]
  · have hqueue : reported u (.worker w a) = [] := by
      cases hu : u.pc w with
      | done result => exact absurd ⟨result, hu⟩ hdone
      | _ => simp only [reported, hu]
    refine ⟨log, h.frame (fun j r' => ?_) rfl ?_⟩
    · cases j with
      | request i => exact Iff.rfl
      | transaction w' =>
        by_cases hw : w' = w
        · subst hw
          refine iff_of_false ?_ ?_
          · rintro ⟨result, hpc, -⟩
            exact hdone ⟨result, hpc⟩
          · rintro ⟨result, hpc, -⟩
            exact hstep.pc_ne_done result hpc
        · simp only [Reported, hstep.pc_ne hw]
    · rw [hqueue, List.append_nil]

/-- A request that goes on without a report. -/
theorem Told.set (h : Told s log) {i : Nat} {pc pc' : HttpPc} (hi : s.requests[i]? = some pc)
    (hpc : ∀ title, pc ≠ .reported title) (hpc' : ∀ title, pc' ≠ .reported title) :
    Told { s with requests := s.requests.set i pc' } log := by
  refine h.frame (fun j r => ?_) rfl rfl
  cases j with
  | transaction w => exact Iff.rfl
  | request j =>
    by_cases hj : i = j
    · subst hj
      have hset := List.getElem?_set_self (a := pc') (List.getElem?_eq_some_iff.1 hi).1
      simp only [Reported, hset, hi, Option.some.injEq, hpc, hpc', false_and]
    · simp [Reported, List.getElem?_set_ne hj]

theorem told_step {a : MainAct} (h : ∃ log, Told s log) (hstep : MainStep sym s a t) :
    ∃ log, Told t log := by
  obtain ⟨log, h⟩ := h
  cases hstep with
  | worker hw => exact told_worker h hw
  | ui hui =>
    refine ⟨log, h.frame (fun j r => ?_) rfl rfl⟩
    cases j <;> simp only [Reported, State.pc, hui.workers_eq]
  | button hui =>
    refine ⟨log, h.frame (fun j r => ?_) rfl rfl⟩
    cases j with
    | transaction w => exact Iff.rfl
    | request j =>
      rcases Nat.lt_trichotomy j s.requests.length with hj | rfl | hj
      · simp [Reported, List.getElem?_append_left hj]
      · simp [Reported]
      · have hnone : (s.requests ++ [HttpPc.clicked])[j]? = none :=
          List.getElem?_eq_none (by rw [List.length_append]; exact hj)
        simp [Reported, hnone, List.getElem?_eq_none (Nat.le_of_lt hj)]
  | start hi | respond hi | fail hi =>
    exact ⟨log, h.set hi (fun _ e => by cases e) fun _ e => by cases e⟩
  | @report i html hi =>
    have hset := List.getElem?_set_self (a := HttpPc.reported (getPageTitle html))
      (List.getElem?_eq_some_iff.1 hi).1
    refine ⟨_, h.post (i := .request i) ?_ (fun j r => ?_) rfl rfl⟩
    · rintro r ⟨title, hold, -⟩
      cases hi.symm.trans hold
    · cases j with
      | transaction w => simp [Reported]
      | request j =>
        by_cases hj : i = j
        · subst hj
          simp [Reported, hset, hi]
        · simp [Reported, List.getElem?_set_ne hj, Ne.symm hj]
  | toast hui hqueue =>
    refine ⟨log, h.posted.frame fun j r => Iff.rfl, ?_⟩
    rw [h.texts, hqueue, List.map_cons, List.append_assoc]
    rfl

theorem told_run {acts : List MainAct} (hrun : run (mainStep sym) MainState.init acts = some s) :
    ∃ log, Told s log := by
  refine run_preserves (I := fun s => ∃ log, Told s log) ?_ ⟨[], told_init⟩ hrun
  intro s a t hs h
  exact told_step hs (mainStep_cases h)

theorem Told.mem_iff (h : Told s log) (r : Runnable) :
    r.text ∈ s.toasts ∨ r ∈ s.queue ↔ ∃ i, Reported s i r := by
  have hmem : r.text ∈ s.toasts ++ s.queue.map Runnable.text ↔ r ∈ log.map Prod.snd := by
    rw [← h.texts, List.mem_map_of_injective text_injective]
  rw [List.mem_append, List.mem_map_of_injective text_injective] at hmem
  rw [hmem, List.mem_map]
  constructor
  · rintro ⟨⟨i, r'⟩, hlog, rfl⟩
    exact ⟨i, (h.posted.mem_iff i r').1 hlog⟩
  · rintro ⟨i, hr⟩
    exact ⟨(i, r), (h.posted.mem_iff i r).2 hr, rfl⟩

theorem Told.exists_sources (h : Told s log) (r : Runnable) :
    ∃ is : List Source, is.Nodup ∧ (∀ i, i ∈ is ↔ Reported s i r) ∧
      s.toasts.count r.text + s.queue.count r = is.length := by
  obtain ⟨is, hnodup, hmem, hlen⟩ := h.posted.exists_sources (· == r)
  refine ⟨is, hnodup, fun i => ?_, ?_⟩
  · simp [hmem]
  · calc s.toasts.count r.text + s.queue.count r
        = (s.toasts ++ s.queue.map Runnable.text).count r.text := by
          rw [List.count_append, List.count_map_of_injective _ _ text_injective]
      _ = (log.map Prod.snd).count r := by
          rw [← h.texts, List.count_map_of_injective _ _ text_injective]
      _ = is.length := hlen.symm

end Told

/-- **Each report is shown once.** In every reachable state a toast has been shown, or is waiting to
be shown, exactly as often as a finished transaction or a request has reported it. -/
theorem count_toast {sym : DecimalFormatSymbols} {acts : List MainAct} {s : MainState}
    (hrun : run (mainStep sym) MainState.init acts = some s) (r : Runnable) :
    ∃ is : List Source, is.Nodup ∧ (∀ i, i ∈ is ↔ Reported s i r) ∧
      s.toasts.count r.text + s.queue.count r = is.length := by
  obtain ⟨log, h⟩ := told_run hrun
  exact h.exists_sources r

/-- The transaction for one rouble, and a request that the back end answers. -/
def toastRun (keys : List (Fin 10)) : List MainAct :=
  (comparedRun keys).map .session ++
    [.onButtonClick, .http 0 .start, .toast, .http 0 (.respond getTitle), .http 0 .report, .toast]

theorem count_toast_rouble : ∃ s,
    run (mainStep symbolsEn) MainState.init (toastRun [4, 3, 4, 3]) = some s ∧
    ∃ is : List Source, is.Nodup ∧ (∀ i, i ∈ is ↔ Reported s i (.transactionResult true)) ∧
      s.toasts.count (Runnable.transactionResult true).text +
        s.queue.count (.transactionResult true) = is.length := by
  have hend : (run (mainStep symbolsEn) MainState.init (toastRun [4, 3, 4, 3])).isSome := by
    decide +kernel
  obtain ⟨s, hrun⟩ := Option.isSome_iff_exists.1 hend
  exact ⟨s, hrun, count_toast hrun _⟩

/-! ## Transactions -/

/-- **The toast means the PIN.** Whatever pages are fetched, `TRANSACTION COMPLETE` is only shown
after `4343` was typed into a pinpad and confirmed, as long as released buffers stay readable. -/
theorem complete_spelled {sym : DecimalFormatSymbols} {acts : List MainAct} {s : MainState}
    (hrun : run (mainStep sym) MainState.init acts = some s)
    (hread : ReadableRun (sessionActs acts) s.session)
    (hshown : jstr "TRANSACTION COMPLETE" ∈ s.toasts) :
    ∃ w, s.session.pc w = .done true ∧ ∃ c, Spelled (sessionActs acts) c (jstr "4343") := by
  obtain ⟨log, h⟩ := told_run hrun
  obtain ⟨i, hi⟩ := (h.mem_iff (.transactionResult true)).1 (.inl hshown)
  cases i with
  | transaction w =>
    obtain ⟨result, hdone, hresult⟩ := hi
    cases hresult
    exact ⟨w, hdone, approved_spelled (session_run hrun) hread hdone⟩
  | request i =>
    obtain ⟨title, -, htitle⟩ := hi
    unfold titleRunnable at htitle
    split at htitle <;> cases htitle

theorem complete_spelled_rouble : ∃ s,
    run (mainStep symbolsEn) MainState.init (toastRun [4, 3, 4, 3]) = some s ∧
    ReadableRun (sessionActs (toastRun [4, 3, 4, 3])) s.session ∧
    jstr "TRANSACTION COMPLETE" ∈ s.toasts ∧ ∃ w, s.session.pc w = .done true ∧
      ∃ c, Spelled (sessionActs (toastRun [4, 3, 4, 3])) c (jstr "4343") := by
  have hend : (run (mainStep symbolsEn) MainState.init (toastRun [4, 3, 4, 3])).map
      MainState.toasts = some [jstr "TRANSACTION COMPLETE",
        jstr "My_Backend_First_Title - Это хороший сайт"] := by
    decide +kernel
  obtain ⟨s, hrun, htoasts⟩ := Option.map_eq_some_iff.1 hend
  obtain ⟨u, hu, -, hread⟩ := run_comparedRun
  obtain rfl : u = s.session := Option.some.inj (hu.symm.trans (session_run hrun))
  have hshown : jstr "TRANSACTION COMPLETE" ∈ s.toasts := by
    rw [htoasts]
    exact List.mem_cons_self
  exact ⟨s, hrun, hread, hshown, complete_spelled hrun hread hshown⟩

/-! ## Pages -/

/-- The pages that a request has got. -/
def served (i : Nat) (acts : List MainAct) : List JString :=
  acts.filterMap fun a => match a with
    | .http j (.respond html) => if j = i then some html else none
    | _ => none

def Fetched (acts : List MainAct) (i : Nat) : Option HttpPc → Prop
  | some (.fetched html) => served i acts = [html]
  | some (.reported title) => ∃ html, served i acts = [html] ∧ title = getPageTitle html
  | _ => served i acts = []

theorem served_concat (i : Nat) (acts : List MainAct) (a : MainAct) :
    served i (acts ++ [a]) = served i acts ++ served i [a] :=
  List.filterMap_append

theorem Fetched.congr {acts acts' : List MainAct} {i : Nat} {pc : Option HttpPc}
    (h : Fetched acts i pc) (heq : served i acts' = served i acts) : Fetched acts' i pc := by
  unfold Fetched at h ⊢
  rwa [heq]

theorem fetched_step {sym : DecimalFormatSymbols} {acts : List MainAct} {s t : MainState}
    {a : MainAct} (h : ∀ i, Fetched acts i s.requests[i]?) (hstep : MainStep sym s a t) (i : Nat) :
    Fetched (acts ++ [a]) i t.requests[i]? := by
  have hframe : served i [a] = [] → Fetched (acts ++ [a]) i s.requests[i]? := fun ha =>
    (h i).congr (by rw [served_concat, ha, List.append_nil])
  have hset : ∀ {j pc}, j ≠ i → (s.requests.set j pc)[i]? = s.requests[i]? :=
    fun hj => List.getElem?_set_ne hj
  have hself : ∀ {pc pc'}, s.requests[i]? = some pc' → (s.requests.set i pc)[i]? = some pc :=
    fun hi => List.getElem?_set_self (List.getElem?_eq_some_iff.1 hi).1
  cases hstep with
  | worker | ui | toast => exact hframe rfl
  | button hui =>
    rcases Nat.lt_trichotomy i s.requests.length with hlt | rfl | hgt
    · rw [List.getElem?_append_left hlt]
      exact hframe rfl
    · have hold := hframe rfl
      rw [List.getElem?_eq_none (Nat.le_refl _)] at hold
      rw [List.getElem?_concat_length]
      exact hold
    · have hold := hframe rfl
      rw [List.getElem?_eq_none (Nat.le_of_lt hgt)] at hold
      rwa [List.getElem?_eq_none (by rw [List.length_append]; exact hgt)]
  | @start j hj | @fail j hj =>
    by_cases hji : j = i
    · subst hji
      have hold := hframe rfl
      rw [hj] at hold
      rw [hself hj]
      exact hold
    · rw [hset hji]
      exact hframe rfl
  | @respond j html hj =>
    by_cases hji : j = i
    · subst hji
      have hold := h j
      rw [hj] at hold
      rw [hself hj, Fetched, served_concat, hold]
      simp [served]
    · rw [hset hji]
      exact hframe (by simp [served, hji])
  | @report j html hj =>
    by_cases hji : j = i
    · subst hji
      have hold := hframe rfl
      rw [hj] at hold
      rw [hself hj]
      exact ⟨html, hold, rfl⟩
    · rw [hset hji]
      exact hframe rfl

theorem fetched_run {sym : DecimalFormatSymbols} {acts : List MainAct} {s : MainState}
    (hrun : run (mainStep sym) MainState.init acts = some s) (i : Nat) :
    Fetched acts i s.requests[i]? := by
  refine run_history (I := fun acts s => ∀ i, Fetched acts i s.requests[i]?) ?_ ?_ hrun i
  · intro i
    rw [MainState.init, List.getElem?_nil]
    rfl
  · intro acts s a t _ hold hstep
    exact fetched_step hold (mainStep_cases hstep)

/-- A title other than the default is found exactly where the first `<title>` of the page starts
its element. -/
theorem getPageTitle_eq_iff {html t : JString} (hne : t ≠ []) (ht : ¬ jstr "</title>" <:+: t)
    (hdefault : t ≠ jstr "Not found") : getPageTitle html = t ↔
      ∃ pre post, ¬ jstr "<title>" <:+: pre ∧
        html = pre ++ jstr "<title>" ++ t ++ jstr "</title>" ++ post := by
  constructor
  · intro h
    rcases getPageTitle_cases html with ⟨hnot, -⟩ | ⟨pre, s, t', rfl, hpre, hshortest⟩
    · exact absurd (h.symm.trans hnot) hdefault
    · rw [getPageTitle_of_shortest hpre hshortest] at h
      subst h
      obtain ⟨post, rfl⟩ := hshortest.isPrefix
      exact ⟨pre, post, hpre, by simp only [List.append_assoc]⟩
  · rintro ⟨pre, post, hpre, rfl⟩
    exact getPageTitle_embedded hpre hne ht post

/-- **Warnings.** The warning about the portal is shown, or waiting to be shown, exactly if a
request that is finished got a page whose first title element has the title of the portal. -/
theorem warned_iff {sym : DecimalFormatSymbols} {acts : List MainAct} {s : MainState}
    (hrun : run (mainStep sym) MainState.init acts = some s) :
    portalTitle ++ jstr " - Это фу сайт)" ∈ s.toasts ∨ .portal portalTitle ∈ s.queue ↔
      ∃ i pre post, (∃ title, s.requests[i]? = some (.reported title)) ∧
        ¬ jstr "<title>" <:+: pre ∧
        served i acts = [pre ++ jstr "<title>" ++ portalTitle ++ jstr "</title>" ++ post] := by
  obtain ⟨log, h⟩ := told_run hrun
  have hiff : ∀ html, getPageTitle html = portalTitle ↔ _ := fun html =>
    @getPageTitle_eq_iff html portalTitle (by decide) (by decide) (by decide)
  refine (h.mem_iff (.portal portalTitle)).trans ⟨?_, ?_⟩
  · rintro ⟨i, hi⟩
    cases i with
    | transaction w =>
      obtain ⟨result, -, hresult⟩ := hi
      cases hresult
    | request i =>
      obtain ⟨title, hreq, htitle⟩ := hi
      have hfetched := fetched_run hrun i
      rw [hreq] at hfetched
      obtain ⟨html, hserved, rfl⟩ := hfetched
      have hportal : getPageTitle html = portalTitle := by
        unfold titleRunnable at htitle
        split at htitle
        · assumption
        · cases htitle
      obtain ⟨pre, post, hpre, rfl⟩ := (hiff html).1 hportal
      exact ⟨i, pre, post, ⟨_, hreq⟩, hpre, hserved⟩
  · rintro ⟨i, pre, post, ⟨title, hreq⟩, hpre, hserved⟩
    have hfetched := fetched_run hrun i
    rw [hreq] at hfetched
    obtain ⟨html, hserved', rfl⟩ := hfetched
    cases hserved.symm.trans hserved'
    refine ⟨.request i, _, hreq, ?_⟩
    rw [(hiff _).2 ⟨pre, post, hpre, rfl⟩]
    simp [titleRunnable]

def portalRun : List MainAct :=
  [.onButtonClick, .http 0 .start,
    .http 0 (.respond (jstr "<title>" ++ portalTitle ++ jstr "</title>")), .http 0 .report, .toast]

theorem warned_iff_portal : ∃ s, run (mainStep symbolsEn) MainState.init portalRun = some s ∧
    ∃ i pre post, (∃ title, s.requests[i]? = some (.reported title)) ∧
      ¬ jstr "<title>" <:+: pre ∧
      served i portalRun =
        [pre ++ jstr "<title>" ++ portalTitle ++ jstr "</title>" ++ post] := by
  have hend : (run (mainStep symbolsEn) MainState.init portalRun).map (fun s => s.toasts) =
      some [portalTitle ++ jstr " - Это фу сайт)"] := by decide +kernel
  obtain ⟨s, hrun, htoasts⟩ := Option.map_eq_some_iff.1 hend
  refine ⟨s, hrun, (warned_iff hrun).1 (.inl ?_)⟩
  rw [htoasts]
  exact List.mem_singleton_self _

end Fclient.Verify
