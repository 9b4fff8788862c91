import Fclient.Client.PageTitle
import Fclient.Client.Session

/-!
# What the user is told

The callbacks of the running application together with the threads of `testHttpClient`. Each click
on the button of `MainActivity` starts a thread that starts the one which fetches the page, and both
this thread and `transactionResult` hand the UI thread a toast with `runOnUiThread`. The UI thread
runs what it was handed in order, one callback at a time.
-/

namespace Fclient.Client

/-- The title that `testHttpClient` compares with. -/
def portalTitle : JString := jstr "Портал государственных услуг Российской Федерации"

/-- A lambda handed to `runOnUiThread`, with what it captures. -/
inductive Runnable
  | transactionResult (result : Bool)
  | portal (title : JString)
  | other (title : JString)
  deriving DecidableEq

/-- The text of the toast that the lambda makes. -/
def Runnable.text : Runnable → JString
  | .transactionResult result =>
    if result then jstr "TRANSACTION COMPLETE" else jstr "ERROR: Transaction did not complete"
  | .portal title => title ++ jstr " - Это фу сайт)"
  | .other title => title ++ jstr " - Это хороший сайт"

def titleRunnable (title : JString) : Runnable :=
  if title = portalTitle then .portal title else .other title

/-- The statement that a request executes next. -/
inductive HttpPc
  | clicked -- `testHttpClient()`, in the thread of `onButtonClick`
  | fetching -- from `openConnection` to the end of `IOUtils.toString`
  | fetched (html : JString) -- `getPageTitle(html)` and what is made of it
  | reported (title : JString) -- after `runOnUiThread`
  | failed -- after the `Log.e` of the `catch` block
  deriving DecidableEq

structure MainState where
  session : State
  /-- One request for every click on the button. -/
  requests : List HttpPc
  /-- What `runOnUiThread` was given and the UI thread has not run yet. -/
  queue : List Runnable
  toasts : List JString

def MainState.init : MainState := ⟨State.init, [], [], []⟩

inductive HttpAct
  | start
  | respond (html : JString)
  | fail
  | report

def HttpPc.step : HttpPc → HttpAct → Option (HttpPc × List Runnable)
  | .clicked, .start => some (.fetching, [])
  | .fetching, .respond html => some (.fetched html, [])
  | .fetching, .fail => some (.failed, [])
  | .fetched html, .report =>
    let title := getPageTitle html
    some (.reported title, [titleRunnable title])
  | _, _ => none

/-- What a step of the application to `t` hands over: the one in which a worker finishes includes
its call of `transactionResult`. -/
def reported (t : State) : Act → List Runnable
  | .worker w _ =>
    match t.pc w with
    | .done result => [.transactionResult result]
    | _ => []
  | .ui _ => []

inductive MainAct
  | session (a : Act)
  | onButtonClick
  | http (i : Nat) (a : HttpAct)
  | toast -- the UI thread runs the next of the lambdas

def mainStep (sym : DecimalFormatSymbols) (s : MainState) : MainAct → Option MainState
  | .session a => (step sym s.session a).map fun t =>
    { s with session := t, queue := s.queue ++ reported t a }
  | .onButtonClick =>
    if s.session.ui = .idle then some { s with requests := s.requests ++ [.clicked] } else none
  | .http i a => s.requests[i]?.bind fun pc => (pc.step a).map fun x =>
    { s with requests := s.requests.set i x.1, queue := s.queue ++ x.2 }
  | .toast =>
    match s.session.ui, s.queue with
    | .idle, runnable :: queue =>
      some { s with queue := queue, toasts := s.toasts ++ [runnable.text] }
    | _, _ => none

end Fclient.Client
