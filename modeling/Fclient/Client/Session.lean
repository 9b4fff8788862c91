import Fclient.Base.Monitor
import Fclient.Client.Pinpad
import Fclient.Native.Transaction
import Mathlib.Logic.Function.Basic

/-!
# The running application

Any number of transaction workers, the UI thread of `MainActivity` and the pinpads that the workers
launch. A worker runs the retry loop of the native code, whose body is `MainActivity.enterPIN`; the
UI thread runs one callback at a time, `onActivityResult` among them. All of them share the field
`pin` and the monitor of the activity. Each statement that touches what is shared is one step, and a
pinpad is known by the call of `enterPIN` that launched it. The runs are those of a living process:
an exception that nothing catches ends it, so a step that throws is not enabled. An activity is
created once; a rotation of the screen, which would create it again, is not a step.
-/

namespace Fclient.Client

open Base Native

/-- A call of `enterPIN`: the worker, and how many of its calls returned before. -/
structure CallId where
  worker : Nat
  index : Nat
  deriving DecidableEq, Repr

inductive Thread
  | worker (w : Nat)
  | ui
  deriving DecidableEq, Repr

/-- The statement that a worker executes next. -/
inductive Pc
  | idle
  | head -- `while (ptc > 0)`
  | reset -- `pin = new String()`
  | enter -- `synchronized (MainActivity.this)`
  | launch -- `activityResultLauncher.launch(it)`
  | wait -- `MainActivity.this.wait()`
  | waiting -- inside `wait`: blocked, or notified and competing for the monitor
  | exit -- the end of the synchronized block
  | ret -- `return pin`
  | compare (pin : JString) -- `strcmp(utf, "4343") == 0` on the returned string
  | done (result : Bool) -- after `transactionResult(result)`
  | rejected -- after the `return false` of a malformed record
  deriving DecidableEq

structure Worker where
  amount : JString
  ptc : Nat
  /-- How many calls of `enterPIN` have returned. -/
  calls : Nat
  pc : Pc

/-- What the UI thread does next. All but `idle` are inside `onActivityResult` for a `RESULT_OK`. -/
inductive UiPc
  | idle
  | write (c : CallId) (pin : JString) -- `pin = intent.getStringExtra("pin")`
  | enter (c : CallId) (pin : JString) -- `synchronized (MainActivity.this)`
  | notify (c : CallId) (pin : JString) -- `MainActivity.this.notifyAll()`
  | exit -- the end of the synchronized block
  deriving DecidableEq

/-- The life of a pinpad, from its launch to the end of `onActivityResult`. -/
inductive Phase
  | starting
  | shown (p : PinpadActivity)
  | finished (r : ActivityResult)
  | handling (pin : JString)
  | handled (r : ActivityResult)

structure Pad where
  intent : Intent
  phase : Phase

structure State where
  /-- The field `pin`; `none` is `null`. -/
  pin : Option JString
  monitor : Monitor Thread
  workers : Nat → Worker
  ui : UiPc
  pads : CallId → Option Pad
  /-- What each call of `enterPIN` has returned. -/
  returned : CallId → Option JString

def State.init : State where
  pin := none
  monitor := Monitor.free
  workers := fun _ => ⟨[], 0, 0, .idle⟩
  ui := .idle
  pads := fun _ => none
  returned := fun _ => none

namespace State

def pc (s : State) (w : Nat) : Pc := (s.workers w).pc

/-- The call that a worker is in, or makes next. -/
def call (s : State) (w : Nat) : CallId := ⟨w, (s.workers w).calls⟩

def setWorker (s : State) (w : Nat) (x : Worker) : State :=
  { s with workers := Function.update s.workers w x }

def setPc (s : State) (w : Nat) (pc : Pc) : State := s.setWorker w { s.workers w with pc := pc }

def setPad (s : State) (c : CallId) (pad : Pad) : State :=
  { s with pads := Function.update s.pads c (some pad) }

end State

/-! ## The workers -/

inductive WorkerAct
  | start (trd : JByteArray) (stack : Fin 13 → UInt8)
  | loop
  | reset
  | enter
  | launch
  | wait
  | wake -- a spurious wakeup
  | resume
  | exit
  | ret
  | compare (released : List UInt8)

def workerStep (s : State) (w : Nat) (a : WorkerAct) : Option State :=
  let x := s.workers w
  match x.pc, a with
  | .idle, .start trd stack =>
    if malformed trd.elements then some (s.setPc w .rejected)
    else some (s.setWorker w
      { x with amount := amountString stack trd.elements, ptc := 3, pc := .head })
  | .head, .loop => some (s.setPc w (if 0 < x.ptc then .reset else .done false))
  | .reset, .reset => some { s.setPc w .enter with pin := some [] }
  | .enter, .enter =>
    (s.monitor.enter (.worker w)).map fun m => { s.setPc w .launch with monitor := m }
  | .launch, .launch =>
    let intent := enterPINIntent (Int32.ofNat x.ptc) x.amount
    some ((s.setPad (s.call w) ⟨intent, .starting⟩).setPc w .wait)
  | .wait, .wait =>
    (s.monitor.wait (.worker w)).map fun m => { s.setPc w .waiting with monitor := m }
  | .waiting, .wake => (s.monitor.wake (.worker w)).map fun m => { s with monitor := m }
  | .waiting, .resume =>
    (s.monitor.resume (.worker w)).map fun m => { s.setPc w .exit with monitor := m }
  | .exit, .exit => (s.monitor.exit (.worker w)).map fun m => { s.setPc w .ret with monitor := m }
  | .ret, .ret =>
    s.pin.map fun v =>
      { s.setWorker w { x with calls := x.calls + 1, pc := .compare v } with
        returned := Function.update s.returned (s.call w) (some v) }
  | .compare v, .compare released =>
    let utf := releaseStringUTFChars (getStringUTFChars ⟨v, released⟩)
    some (if pinMatches utf then s.setPc w (.done (decide (0 < x.ptc)))
      else s.setWorker w { x with ptc := x.ptc - 1, pc := .head })
  | _, _ => none

/-! ## The UI thread -/

inductive UiAct
  | create (c : CallId) (rnd : Fin 10 → JByte)
  | click (c : CallId) (k : Click)
  | back (c : CallId)
  | deliver (c : CallId) -- `onActivityResult`
  | write
  | enter
  | notify
  | exit

/-- A click that sets a result has finished the activity. -/
def Phase.ofPinpad (p : PinpadActivity) : Phase :=
  match p.result with
  | none => .shown p
  | some r => .finished r

def uiStep (sym : DecimalFormatSymbols) (s : State) (a : UiAct) : Option State :=
  match s.ui, a with
  | .idle, .create c rnd =>
    match s.pads c with
    -- the process ends with the `NumberFormatException` of `Long.valueOf` where this is `none`
    | some ⟨intent, .starting⟩ =>
      (onCreate sym rnd intent).toOption.map fun p => s.setPad c ⟨intent, .shown p⟩
    | _ => none
  | .idle, .click c k =>
    match s.pads c with
    | some ⟨intent, .shown p⟩ => (click p k).map fun p => s.setPad c ⟨intent, Phase.ofPinpad p⟩
    | _ => none
  | .idle, .back c =>
    match s.pads c with
    | some ⟨intent, .shown _⟩ => some (s.setPad c ⟨intent, .finished .canceled⟩)
    | _ => none
  | .idle, .deliver c =>
    match s.pads c with
    | some ⟨intent, .finished (.ok v)⟩ =>
      some { s.setPad c ⟨intent, .handling v⟩ with ui := .write c v }
    -- `result.getResultCode() == Activity.RESULT_OK` fails, and there is no other branch
    | some ⟨intent, .finished .canceled⟩ => some (s.setPad c ⟨intent, .handled .canceled⟩)
    | _ => none
  | .write c v, .write => some { s with pin := some v, ui := .enter c v }
  | .enter c v, .enter =>
    (s.monitor.enter .ui).map fun m => { s with monitor := m, ui := .notify c v }
  | .notify c v, .notify =>
    (s.monitor.notifyAll .ui).bind fun m => (s.pads c).map fun pad =>
      { s.setPad c ⟨pad.intent, .handled (.ok v)⟩ with monitor := m, ui := .exit }
  | .exit, .exit => (s.monitor.exit .ui).map fun m => { s with monitor := m, ui := .idle }
  | _, _ => none

/-! ## Both -/

inductive Act
  | worker (w : Nat) (a : WorkerAct)
  | ui (a : UiAct)

def step (sym : DecimalFormatSymbols) (s : State) : Act → Option State
  | .worker w a => workerStep s w a
  | .ui a => uiStep sym s a

def Phase.confirmed : Phase → Option JString
  | .finished (.ok v) => some v
  | .handling v => some v
  | .handled (.ok v) => some v
  | _ => none

/-- The PIN that the user confirmed in the pinpad of this call. -/
def State.confirmed (s : State) (c : CallId) : Option JString :=
  (s.pads c).bind fun pad => pad.phase.confirmed

end Fclient.Client
