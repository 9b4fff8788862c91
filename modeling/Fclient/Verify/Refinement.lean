import Fclient.Verify.Solo
import Fclient.Verify.Verdict
import Mathlib.Data.List.GetD

/-!
# The workers of the application run the native transaction

`worker` executes a whole transaction at once, with the answers of `enterPIN` and the content of the
released buffers as an input; in the application the same code runs statement by statement between
the steps of the other threads, and the answers come from the shared field. `Follows` relates a
worker of the application to the sequential one on what the run has given it so far (`promptsOf`);
every step keeps it, whoever takes it. So a worker that is finished has made the calls of
`transaction` and no others (`transaction_of_done`), and the pinpads of a run are the prompts that
the retry loops make (`attempt_of_pads`).
-/

namespace Fclient.Verify

open Base Native Client

/-! ## What a run gives a worker -/

/-- What the released buffers held that a worker has compared, in order. -/
def comparisons (w : Nat) (acts : List Act) : List (List UInt8) :=
  acts.filterMap fun a => match a with
    | .worker w' (.compare released) => if w' = w then some released else none
    | _ => none

/-- The prompts of a worker as the run has answered them; the later ones are empty. -/
def promptsOf (acts : List Act) (s : State) (w k : Nat) : Prompt :=
  ⟨(s.returned ⟨w, k⟩).getD [], (comparisons w acts).getD k []⟩

/-- An answer that was not among the first `j` may be changed. -/
theorem Wrong.update {prompts : Nat → Prompt} {j : Nat} (h : Wrong prompts j) (p : Prompt) :
    Wrong (Function.update prompts j p) j := by
  intro i hi
  rw [Function.update_of_ne (Nat.ne_of_lt hi)]
  exact h i hi

section Prompts

variable {acts : List Act} {s t : State} {w : Nat}

theorem comparisons_concat (w : Nat) (acts : List Act) (a : Act) :
    comparisons w (acts ++ [a]) = comparisons w acts ++ comparisons w [a] :=
  List.filterMap_append

theorem comparisons_ui (w : Nat) (a : UiAct) : comparisons w [.ui a] = [] := rfl

theorem comparisons_ne {w' : Nat} (hne : w' ≠ w) (a : WorkerAct) :
    comparisons w [.worker w' a] = [] := by
  cases a with
  | compare released => simp [comparisons, hne]
  | _ => rfl

theorem comparisons_compare (w : Nat) (released : List UInt8) :
    comparisons w [.worker w (.compare released)] = [released] := by
  simp [comparisons]

/-- The prompts stay the same while nothing is returned and nothing compared. -/
theorem promptsOf_frame {a : Act} (hret : ∀ k, t.returned ⟨w, k⟩ = s.returned ⟨w, k⟩)
    (ha : comparisons w [a] = []) : promptsOf (acts ++ [a]) t w = promptsOf acts s w := by
  funext k
  rw [promptsOf, hret, comparisons_concat, ha, List.append_nil, promptsOf]

/-- A string that is returned is the answer of the first prompt that is not compared yet. -/
theorem promptsOf_ret {a : Act} {v : JString} {k : Nat} (hlen : (comparisons w acts).length = k)
    (hret : t.returned = Function.update s.returned ⟨w, k⟩ (some v))
    (ha : comparisons w [a] = []) :
    promptsOf (acts ++ [a]) t w = Function.update (promptsOf acts s w) k ⟨v, []⟩ := by
  funext i
  by_cases hi : i = k
  · subst hi
    rw [Function.update_self, promptsOf, hret, Function.update_self, comparisons_concat, ha,
      List.append_nil, List.getD_eq_default _ _ (Nat.le_of_eq hlen)]
    rfl
  · have hc : (⟨w, i⟩ : CallId) ≠ ⟨w, k⟩ := fun e => hi (congrArg CallId.index e)
    rw [Function.update_of_ne hi, promptsOf, hret, Function.update_of_ne hc, comparisons_concat, ha,
      List.append_nil, promptsOf]

/-- A comparison fixes the released buffer of its prompt. -/
theorem promptsOf_compare {v : JString} {released : List UInt8} {k : Nat}
    (hlen : (comparisons w acts).length = k) (hv : s.returned ⟨w, k⟩ = some v)
    (hret : t.returned = s.returned) :
    promptsOf (acts ++ [.worker w (.compare released)]) t w =
      Function.update (promptsOf acts s w) k ⟨v, released⟩ := by
  funext i
  rw [promptsOf, hret, comparisons_concat, comparisons_compare]
  rcases Nat.lt_trichotomy i k with hi | rfl | hi
  · rw [Function.update_of_ne (Nat.ne_of_lt hi), promptsOf,
      List.getD_append _ _ _ _ (hlen ▸ hi)]
  · rw [Function.update_self, hv, List.getD_append_right _ _ _ _ (Nat.le_of_eq hlen), hlen,
      Nat.sub_self]
    rfl
  · rw [Function.update_of_ne (Nat.ne_of_gt hi), promptsOf,
      List.getD_eq_default _ _ (by rw [List.length_append, hlen]; exact hi),
      List.getD_eq_default _ _ (by omega)]

end Prompts

/-! ## One worker beside the sequential one -/

/-- How many of its answers a worker has compared. -/
def compared (x : Worker) : Nat :=
  match x.pc with
  | .compare _ => x.calls - 1
  | _ => x.calls

/-- The counter and the answers at each statement; a call that has returned but not been compared
yet is the last one counted. -/
def Progress (x : Worker) (prompts : Nat → Prompt) : Prop :=
  match x.pc with
  | .idle | .rejected => False
  | .head => x.ptc + x.calls = 3 ∧ Wrong prompts x.calls
  | .compare _ => 0 < x.ptc ∧ x.ptc + x.calls = 4 ∧ Wrong prompts (x.calls - 1)
  | .done r => ∃ last, retryLoop x.amount 3 prompts = (promptEvents x.amount 3 x.calls, last) ∧
      r = decide (0 < last)
  | _ => 0 < x.ptc ∧ x.ptc + x.calls = 3 ∧ Wrong prompts x.calls

structure Follows (acts : List Act) (s : State) (w : Nat) (trd : JByteArray)
    (stack : Fin 13 → UInt8) : Prop where
  accepted : Accepted trd
  amount : (s.workers w).amount = amountString stack trd.elements
  comparisons : (comparisons w acts).length = compared (s.workers w)
  progress : Progress (s.workers w) (promptsOf acts s w)

section Follows

variable {acts : List Act} {s t : State} {w : Nat} {trd : JByteArray} {stack : Fin 13 → UInt8}

theorem Follows.next (h : Follows acts s w trd stack) {a : Act} {x : Worker}
    {prompts : Nat → Prompt} (hx : t.workers w = x) (hamount : x.amount = (s.workers w).amount)
    (hc : (Verify.comparisons w (acts ++ [a])).length = compared x)
    (hprompts : promptsOf (acts ++ [a]) t w = prompts) (hp : Progress x prompts) :
    Follows (acts ++ [a]) t w trd stack where
  accepted := h.accepted
  amount := by rw [hx, hamount, h.amount]
  comparisons := hx ▸ hc
  progress := by rwa [hx, hprompts]

/-- A step that neither returns nor compares for this worker. -/
theorem Follows.move (h : Follows acts s w trd stack) {a : Act} {x : Worker}
    (hx : t.workers w = x) (hamount : x.amount = (s.workers w).amount)
    (hc : compared x = compared (s.workers w))
    (hret : ∀ k, t.returned ⟨w, k⟩ = s.returned ⟨w, k⟩) (ha : Verify.comparisons w [a] = [])
    (hp : Progress x (promptsOf acts s w)) : Follows (acts ++ [a]) t w trd stack := by
  refine h.next hx hamount ?_ (promptsOf_frame hret ha) hp
  rw [comparisons_concat, ha, List.append_nil, h.comparisons, hc]

theorem Follows.frame (h : Follows acts s w trd stack) {a : Act}
    (hx : t.workers w = s.workers w) (hret : ∀ k, t.returned ⟨w, k⟩ = s.returned ⟨w, k⟩)
    (ha : Verify.comparisons w [a] = []) : Follows (acts ++ [a]) t w trd stack :=
  h.move hx rfl rfl hret ha h.progress

theorem Follows.progress_of (h : Follows acts s w trd stack) {pc : Pc} (hpc : s.pc w = pc) :
    Progress { s.workers w with pc := pc } (promptsOf acts s w) :=
  hpc ▸ h.progress

theorem Follows.comparisons_of (h : Follows acts s w trd stack) {pc : Pc} (hpc : s.pc w = pc) :
    (Verify.comparisons w acts).length = compared { s.workers w with pc := pc } :=
  hpc ▸ h.comparisons

/-- Where a worker that has no answer to compare goes on, it has compared as many. -/
theorem compared_setPc {pc pc' : Pc} (hpc : s.pc w = pc)
    (h : compared { s.workers w with pc := pc' } = compared { s.workers w with pc := pc }) :
    compared { s.workers w with pc := pc' } = compared (s.workers w) :=
  h.trans (hpc ▸ rfl)

theorem Follows.worker_step {a : WorkerAct} (h : Follows acts s w trd stack) (hs : Wf s)
    (hstep : WorkerStep s w a t) : Follows (acts ++ [.worker w a]) t w trd stack := by
  cases hstep with
  | rejected hpc | accepted hpc => exact (h.progress_of hpc).elim
  | prompt hpc hptc =>
    exact h.move (workers_setWorker _) rfl (compared_setPc hpc rfl) (fun _ => rfl) rfl
      ⟨hptc, h.progress_of hpc⟩
  | exhausted hpc hptc =>
    obtain ⟨hsum, hwrong⟩ := h.progress_of hpc
    have hcalls : (s.workers w).calls = 3 := (Nat.zero_add _).symm.trans (hptc ▸ hsum)
    refine h.move (workers_setWorker _) rfl (compared_setPc hpc rfl) (fun _ => rfl) rfl
      ⟨0, ?_, rfl⟩
    simp only [hcalls, retryLoop_exhausted _ (hcalls ▸ hwrong)]
  | reset hpc | enter hpc | launch hpc | wait hpc | resume hpc | exit hpc =>
    have hp := h.progress_of hpc
    exact h.move (workers_setWorker _) rfl (compared_setPc hpc rfl) (fun _ => rfl) rfl hp
  | wake hpc => exact h.frame rfl (fun _ => rfl) rfl
  | @ret v hpc hpin =>
    obtain ⟨hptc, hsum, hwrong⟩ := h.progress_of hpc
    refine h.next (workers_setWorker { s.workers w with
        calls := (s.workers w).calls + 1, pc := .compare v }) rfl ?_
      (promptsOf_ret (h.comparisons_of hpc) rfl rfl)
      ⟨hptc, congrArg Nat.succ hsum, hwrong.update _⟩
    rw [comparisons_concat]
    exact (congrArg List.length (List.append_nil _)).trans (h.comparisons_of hpc)
  | @matched v released hpc hm =>
    obtain ⟨k, hcalls, hret⟩ := hs.compared w v hpc
    obtain ⟨hptc, hsum, hwrong⟩ := h.progress_of hpc
    have hlen := h.comparisons_of hpc
    simp only [compared, hcalls, Nat.add_sub_cancel] at hptc hsum hwrong hlen
    have hlast := retryLoop_matched (s.workers w).amount (by omega : k < 3)
      ⟨hwrong.update ⟨v, released⟩, by rwa [Function.update_self]⟩
    refine h.next (workers_setWorker _) rfl ?_ (promptsOf_compare hlen hret rfl)
      ⟨3 - k, by rw [hlast, hcalls], decide_eq_decide.2 (by omega)⟩
    rw [comparisons_concat, comparisons_compare, List.length_append, hlen]
    exact hcalls.symm
  | @mismatched v released hpc hm =>
    obtain ⟨k, hcalls, hret⟩ := hs.compared w v hpc
    obtain ⟨hptc, hsum, hwrong⟩ := h.progress_of hpc
    have hlen := h.comparisons_of hpc
    simp only [compared, hcalls, Nat.add_sub_cancel] at hptc hsum hwrong hlen
    refine h.next (workers_setWorker { s.workers w with
        ptc := (s.workers w).ptc - 1, pc := .head }) rfl ?_
      (promptsOf_compare hlen hret rfl) ⟨?_, ?_⟩
    · rw [comparisons_concat, comparisons_compare, List.length_append, hlen]
      exact hcalls.symm
    · show (s.workers w).ptc - 1 + (s.workers w).calls = 3
      omega
    · show Wrong _ (s.workers w).calls
      rw [hcalls]
      exact (hwrong.update _).succ (by rwa [Function.update_self])

theorem Follows.start (hacc : Accepted trd) (hcalls : (s.workers w).calls = 0)
    (hcomp : Verify.comparisons w acts = []) (hx : t.workers w = { s.workers w with
      amount := amountString stack trd.elements, ptc := 3, pc := .head }) :
    Follows (acts ++ [.worker w (.start trd stack)]) t w trd stack := by
  refine ⟨hacc, by rw [hx], ?_, ?_⟩
  · rw [comparisons_concat, hcomp, hx]
    exact hcalls.symm
  · rw [hx]
    refine ⟨?_, fun i hi => ?_⟩
    · show 3 + (s.workers w).calls = 3
      rw [hcalls]
    · rw [hcalls] at hi
      exact absurd hi (Nat.not_lt_zero i)

/-- A step that is not the worker's own returns nothing to it and compares nothing for it. -/
theorem step_frame {sym : DecimalFormatSymbols} {a : Act} (hstep : step sym s a = some t)
    (w : Nat) : (∃ a', a = .worker w a' ∧ WorkerStep s w a' t) ∨
      t.workers w = s.workers w ∧ (∀ k, t.returned ⟨w, k⟩ = s.returned ⟨w, k⟩) ∧
        Verify.comparisons w [a] = [] := by
  cases a with
  | worker w' a =>
    have hw := workerStep_cases hstep
    by_cases he : w' = w
    · subst he
      exact .inl ⟨a, rfl, hw⟩
    · refine .inr ⟨hw.workers_ne (Ne.symm he), ?_, comparisons_ne he a⟩
      intro k
      obtain ⟨v, -, -, -, hret⟩ | ⟨-, hret⟩ := hw.returned_eq
      · have hc : (⟨w, k⟩ : CallId) ≠ s.call w' := fun e => he (congrArg CallId.worker e).symm
        rw [hret, Function.update_of_ne hc]
      · rw [hret]
  | ui a =>
    have hu := uiStep_cases hstep
    exact .inr ⟨congrFun hu.workers_eq w, fun k => by rw [hu.returned_eq], comparisons_ui w a⟩

theorem Follows.step {sym : DecimalFormatSymbols} (h : Follows acts s w trd stack) (hs : Wf s)
    {a : Act} (hstep : Client.step sym s a = some t) : Follows (acts ++ [a]) t w trd stack := by
  obtain ⟨a, rfl, hw⟩ | ⟨hx, hret, ha⟩ := step_frame hstep w
  · exact h.worker_step hs hw
  · exact h.frame hx hret ha

/-- A worker that follows the sequential one goes on doing so. -/
theorem Follows.run {sym : DecimalFormatSymbols} {more : List Act}
    (h : Follows acts s w trd stack)
    (hrun : Base.run (Client.step sym) State.init acts = some s)
    (hmore : Base.run (Client.step sym) s more = some t) :
    Follows (acts ++ more) t w trd stack := by
  refine run_history (I := fun more t => Follows (acts ++ more) t w trd stack) ?_ ?_ hmore
  · rw [List.append_nil]
    exact h
  · intro more t a u hmore hold hstep
    rw [← List.append_assoc]
    exact hold.step (wf_run (run_trans hrun hmore)) hstep

end Follows

/-! ## All workers of a run -/

/-- A worker has not been started, or has rejected the record it was started with, or follows the
sequential one on it. -/
inductive Started (acts : List Act) (s : State) (w : Nat) : Prop
  | idle (hpc : s.pc w = .idle) (hcomp : comparisons w acts = [])
  | rejected {trd stack} (hpc : s.pc w = .rejected) (hcalls : (s.workers w).calls = 0)
    (hmem : .worker w (.start trd stack) ∈ acts) (hrej : ¬ Accepted trd)
  | follows {trd stack} (hmem : .worker w (.start trd stack) ∈ acts)
    (h : Follows acts s w trd stack)

section Started

variable {sym : DecimalFormatSymbols} {acts : List Act} {s t : State} {w : Nat}

theorem Started.worker_step {a : WorkerAct} (h : Started acts s w) (hs : Wf s)
    (hstep : WorkerStep s w a t) : Started (acts ++ [.worker w a]) t w := by
  cases h with
  | idle hpc hcomp =>
    cases hstep with
    | @rejected trd stack _ hm =>
      refine .rejected (pc_setPc _) ?_ (List.mem_append_right _ List.mem_cons_self)
        ((malformed_eq_true trd).1 hm)
      exact (congrArg Worker.calls (workers_setWorker _)).trans (hs.idle w hpc)
    | @accepted trd stack _ hm =>
      exact .follows (List.mem_append_right _ List.mem_cons_self)
        (.start ((malformed_eq_false trd).1 hm) (hs.idle w hpc) hcomp (workers_setWorker _))
    | prompt h | exhausted h | reset h | enter h | launch h | wait h | wake h | resume h
    | exit h | ret h | matched h | mismatched h => cases hpc.symm.trans h
  | rejected hpc =>
    cases hstep with
    | rejected h | accepted h | prompt h | exhausted h | reset h | enter h | launch h | wait h
    | wake h | resume h | exit h | ret h | matched h | mismatched h => cases hpc.symm.trans h
  | follows hmem h => exact .follows (List.mem_append_left _ hmem) (h.worker_step hs hstep)

/-- A step of somebody else. -/
theorem Started.frame (h : Started acts s w) {a : Act} (hx : t.workers w = s.workers w)
    (hret : ∀ k, t.returned ⟨w, k⟩ = s.returned ⟨w, k⟩) (ha : comparisons w [a] = []) :
    Started (acts ++ [a]) t w := by
  have hpc : t.pc w = s.pc w := congrArg Worker.pc hx
  cases h with
  | idle h hcomp =>
    exact .idle (hpc.trans h) (by rw [comparisons_concat, hcomp, ha, List.append_nil])
  | rejected h hcalls hmem hrej =>
    exact .rejected (hpc.trans h) (hx ▸ hcalls) (List.mem_append_left _ hmem) hrej
  | follows hmem h => exact .follows (List.mem_append_left _ hmem) (h.frame hx hret ha)

theorem started_step {a : Act} (hs : Wf s) (h : Started acts s w)
    (hstep : step sym s a = some t) : Started (acts ++ [a]) t w := by
  obtain ⟨a, rfl, hw⟩ | ⟨hx, hret, ha⟩ := step_frame hstep w
  · exact h.worker_step hs hw
  · exact h.frame hx hret ha

theorem started_run (hrun : run (step sym) State.init acts = some s) (w : Nat) :
    Started acts s w := by
  refine run_history (I := fun acts s => Started acts s w) (.idle rfl rfl) ?_ hrun
  intro acts s a t hs hold hstep
  exact started_step (wf_run hs) hold hstep

end Started

/-! ## The pinpads are the prompts of the retry loop -/

/-- The pinpad of the call `k` is launched with the amount of the worker and `3 - k` attempts. -/
def attempt (s : State) (c : CallId) : Intent :=
  enterPINIntent (Int32.ofNat (3 - c.index)) (s.workers c.worker).amount

section Attempt

variable {sym : DecimalFormatSymbols} {acts : List Act} {s t : State} {w : Nat}

theorem Started.attempts (h : Started acts s w) (hpc : s.pc w = .launch) :
    0 < (s.workers w).ptc ∧ (s.workers w).ptc + (s.workers w).calls = 3 := by
  cases h with
  | idle h | rejected h => cases hpc.symm.trans h
  | follows hmem h =>
    obtain ⟨hptc, hsum, -⟩ := h.progress_of hpc
    exact ⟨hptc, hsum⟩

theorem WorkerStep.attempt {a : WorkerAct} (h : WorkerStep s w a t) (hs : Started acts s w)
    (hold : ∀ c pad, s.pads c = some pad →
      c.index < 3 ∧ pad.intent.ptc = some (Int32.ofNat (3 - c.index))) (c : CallId) (pad : Pad)
    (hpad : t.pads c = some pad) :
    c.index < 3 ∧ pad.intent.ptc = some (Int32.ofNat (3 - c.index)) := by
  cases h with
  | launch hpc =>
    obtain ⟨hptc, hsum⟩ := hs.attempts hpc
    have hidx : (s.call w).index = (s.workers w).calls := rfl
    by_cases hc : c = s.call w
    · subst hc
      cases (Function.update_self _ _ _).symm.trans hpad
      rw [hidx]
      refine ⟨by omega, ?_⟩
      rw [show 3 - (s.workers w).calls = (s.workers w).ptc by omega]
      rfl
    · exact hold c pad ((Function.update_of_ne hc _ _).symm.trans hpad)
  | _ => exact hold c pad hpad

theorem UiStep.attempt {a : UiAct} (h : UiStep sym s a t)
    (hold : ∀ c pad, s.pads c = some pad →
      c.index < 3 ∧ pad.intent.ptc = some (Int32.ofNat (3 - c.index))) (c : CallId) (pad : Pad)
    (hpad : t.pads c = some pad) :
    c.index < 3 ∧ pad.intent.ptc = some (Int32.ofNat (3 - c.index)) := by
  have he := h.intent_eq c
  rw [hpad, Option.map_some, eq_comm, Option.map_eq_some_iff] at he
  obtain ⟨pad', hpad', hintent⟩ := he
  rw [← hintent]
  exact hold c pad' hpad'

theorem attempt_run (hrun : run (step sym) State.init acts = some s) (c : CallId) (pad : Pad)
    (hpad : s.pads c = some pad) :
    c.index < 3 ∧ pad.intent.ptc = some (Int32.ofNat (3 - c.index)) := by
  refine run_history (I := fun _ s => ∀ c pad, s.pads c = some pad →
    c.index < 3 ∧ pad.intent.ptc = some (Int32.ofNat (3 - c.index))) ?_ ?_ hrun c pad hpad
  · intro c pad h
    cases h
  · intro acts s a t hs hold hstep
    cases a with
    | worker w a => exact (workerStep_cases hstep).attempt (started_run hs w) hold
    | ui a => exact (uiStep_cases hstep).attempt hold

/-- The pinpads of a run are the prompts of the retry loops: at most three for a worker, with the
amount of its record and the number of attempts that are left. -/
theorem attempt_of_pads (hrun : run (step sym) State.init acts = some s) {c : CallId} {pad : Pad}
    (hpad : s.pads c = some pad) : c.index < 3 ∧ pad.intent = attempt s c := by
  have hptc := attempt_run hrun c pad hpad
  refine ⟨hptc.1, ?_⟩
  have hamount := (wf_run hrun).amount c pad hpad
  obtain ⟨⟨ptc, amount⟩, phase⟩ := pad
  cases hptc.2
  cases hamount
  rfl

end Attempt

/-- **The application runs the native transaction**: a worker that has reported a result has made
the calls of `transaction` for its record, as the run has answered them, and its pinpads are the
prompts among these calls. -/
theorem transaction_of_done {sym : DecimalFormatSymbols} {acts : List Act} {s : State} {w : Nat}
    {r : Bool} (hrun : run (step sym) State.init acts = some s) (hdone : s.pc w = .done r) :
    ∃ trd stack, .worker w (.start trd stack) ∈ acts ∧
      transaction trd ⟨stack, promptsOf acts s w⟩ = (true, callsBefore ++
        promptEvents (amountString stack trd.elements) 3 (s.workers w).calls ++ callsAfter r) ∧
      ∀ k, (s.pads ⟨w, k⟩).map Pad.intent = if k < (s.workers w).calls then
        some (enterPINIntent (Int32.ofNat (3 - k)) (amountString stack trd.elements))
      else none := by
  cases started_run hrun w with
  | idle hpc | rejected hpc => cases hpc.symm.trans hdone
  | @follows trd stack hmem hf =>
    obtain ⟨last, hloop, hr⟩ := hf.progress_of hdone
    refine ⟨trd, stack, hmem, ?_, fun k => ?_⟩
    · rw [transaction_accepted hf.accepted, ← hf.amount]
      simp only [hloop, hr]
    · have hlaunched : s.pads ⟨w, k⟩ ≠ none ↔ k < (s.workers w).calls := by
        rw [(wf_run hrun).pads ⟨w, k⟩]
        unfold State.pc at hdone
        simp [launches, hdone, Pc.launched]
      split
      · rename_i hk
        obtain ⟨pad, hpad⟩ := Option.ne_none_iff_exists'.1 (hlaunched.2 hk)
        rw [hpad, Option.map_some, (attempt_of_pads hrun hpad).2, attempt, hf.amount]
      · rename_i hk
        rw [not_not.1 fun hne => hk (hlaunched.1 hne), Option.map_none]

theorem transaction_of_done_rouble : ∃ s,
    run (step symbolsEn) State.init (comparedRun [4, 3, 4, 3]) = some s ∧ s.pc 0 = .done true ∧
    ∃ trd stack, .worker 0 (.start trd stack) ∈ comparedRun [4, 3, 4, 3] ∧
      transaction trd ⟨stack, promptsOf (comparedRun [4, 3, 4, 3]) s 0⟩ = (true, callsBefore ++
        promptEvents (amountString stack trd.elements) 3 (s.workers 0).calls ++
          callsAfter true) ∧
      ∀ k, (s.pads ⟨0, k⟩).map Pad.intent = if k < (s.workers 0).calls then
        some (enterPINIntent (Int32.ofNat (3 - k)) (amountString stack trd.elements))
      else none := by
  have hdone : (run (step symbolsEn) State.init (comparedRun [4, 3, 4, 3])).map (fun s => s.pc 0) =
      some (.done true) := by decide +kernel
  obtain ⟨s, hrun, hdone⟩ := Option.map_eq_some_iff.1 hdone
  exact ⟨s, hrun, hdone, transaction_of_done hrun hdone⟩

/-- A worker that has rejected its record has made the calls of `transaction` too, no prompt among
them. -/
theorem transaction_of_rejected {sym : DecimalFormatSymbols} {acts : List Act} {s : State} {w : Nat}
    (hrun : run (step sym) State.init acts = some s) (hrej : s.pc w = .rejected) :
    ∃ trd stack, .worker w (.start trd stack) ∈ acts ∧
      transaction trd ⟨stack, promptsOf acts s w⟩ = (true, callsBefore) ∧
      ∀ k, s.pads ⟨w, k⟩ = none := by
  cases started_run hrun w with
  | idle hpc => cases hpc.symm.trans hrej
  | follows hmem hf => exact (hf.progress_of hrej).elim
  | @rejected trd stack hpc hcalls hmem hacc =>
    refine ⟨trd, stack, hmem, transaction_rejected hacc _, fun k => ?_⟩
    by_contra hne
    have hlt := ((wf_run hrun).pads ⟨w, k⟩).1 hne
    unfold State.pc at hpc
    simp [launches, hpc, hcalls, Pc.launched] at hlt

end Fclient.Verify
