import Fclient.Native.Utf8

/-!
# The native transaction: `transaction` of `native-lib.cpp`

`transaction` pins its two arguments with global references, starts a detached thread and returns
`true`. The thread (`worker`) parses the record, prompts up to three times through
`MainActivity.enterPIN` and reports through `MainActivity.transactionResult`. The JNI calls are kept
as a trace in the order of the source; lookups, attaching and callbacks succeed. What the VM leaves
in a UTF buffer after `ReleaseStringUTFChars` is arbitrary, and so is the fresh stack array.
-/

namespace Fclient.Native

inductive GlobalRef
  | thiz
  | trd
  deriving DecidableEq, Repr

inductive JniEvent
  | newGlobalRef (r : GlobalRef)
  | deleteGlobalRef (r : GlobalRef)
  | attachCurrentThread
  | detachCurrentThread
  | getByteArrayElements
  | releaseByteArrayElements
  | getStringUTFChars
  | releaseStringUTFChars
  | enterPIN (ptc : JInt) (amount : JString)
  | transactionResult (result : Bool)
  deriving DecidableEq, Repr

/-- One prompt: what `enterPIN` answers, and what is in the UTF buffer once it has been released. -/
structure Prompt where
  pin : JString
  released : List UInt8

/-- What the worker does not compute itself: the content of `char buffer[13]` and the prompts. -/
structure WorkerEnv where
  stack : Fin 13 → UInt8
  prompts : Nat → Prompt

/-- `(size != 9) || (p[0] != 0x9F) || (p[1] != 0x02) || (p[2] != 0x06)`. -/
def malformed (p : List UInt8) : Bool :=
  p.length != 9 || p.getD 0 0 != 0x9F || p.getD 1 0 != 0x02 || p.getD 2 0 != 0x06

/-- The loop over the six value bytes, and the terminating zero. -/
def amountBuffer (stack : Fin 13 → UInt8) (p : List UInt8) : List UInt8 :=
  let buffer := (List.range 6).foldl (fun buffer i =>
    let n := p.getD (3 + i) 0
    (buffer.set (i * 2) (((n &&& 0xF0) >>> 4) + 0x30)).set (i * 2 + 1) ((n &&& 0x0F) + 0x30))
    (List.ofFn stack)
  buffer.set 12 0

def amountString (stack : Fin 13 → UInt8) (p : List UInt8) : JString :=
  newStringUTF (amountBuffer stack p)

/-- A buffer from `GetStringUTFChars`: its content, and what it holds once released. -/
structure UtfBuffer where
  live : List UInt8
  stale : List UInt8
  released : Bool

def UtfBuffer.read (utf : UtfBuffer) : List UInt8 := if utf.released then utf.stale else utf.live

def getStringUTFChars (prompt : Prompt) : Option UtfBuffer :=
  some ⟨encodeUtf prompt.pin, prompt.released, false⟩

def releaseStringUTFChars (utf : Option UtfBuffer) : Option UtfBuffer :=
  utf.map fun u => { u with released := true }

def pinLiteral : List UInt8 := [0x34, 0x33, 0x34, 0x33]

/-- `(utf != nullptr) && (strcmp(utf, "4343") == 0)`. -/
def pinMatches (utf : Option UtfBuffer) : Bool :=
  match utf with
  | none => false
  | some u => cString u.read == pinLiteral

/-- The retry loop, entered with the given `ptc`; returns the calls it makes and the final `ptc`. -/
def retryLoop (amount : JString) : Nat → (Nat → Prompt) → List JniEvent × Nat
  | 0, _ => ([], 0)
  | ptc + 1, prompts =>
    let utf := getStringUTFChars (prompts 0)
    let utf := releaseStringUTFChars utf
    let calls := [.enterPIN (Int32.ofNat (ptc + 1)) amount, .getStringUTFChars,
      .releaseStringUTFChars]
    if pinMatches utf then (calls, ptc + 1)
    else
      let (rest, last) := retryLoop amount ptc fun k => prompts (k + 1)
      (calls ++ rest, last)

/-- Attaches the current thread unless the VM knows it, and says so in `detach`. -/
def getEnv (attached : Bool) : List JniEvent × Bool :=
  if attached then ([], false) else ([.attachCurrentThread], true)

def releaseEnv (detach : Bool) : List JniEvent := if detach then [.detachCurrentThread] else []

/-- The body of the thread with its return value, which nobody reads. -/
def worker (trd : JByteArray) (env : WorkerEnv) : List JniEvent × Bool :=
  let (attach, detach) := getEnv false
  let p := trd.elements
  if malformed p then (attach ++ [.getByteArrayElements], false)
  else
    let amount := amountString env.stack p
    let (prompts, ptc) := retryLoop amount 3 env.prompts
    (attach ++ [.getByteArrayElements] ++ prompts ++ [.releaseByteArrayElements,
      .transactionResult (decide (0 < ptc)), .deleteGlobalRef .thiz, .deleteGlobalRef .trd] ++
      releaseEnv detach, true)

/-- The return value of `transaction`, and all calls up to the end of the thread it starts. -/
def transaction (trd : JByteArray) (env : WorkerEnv) : Bool × List JniEvent :=
  (true, [.newGlobalRef .thiz, .newGlobalRef .trd] ++ (worker trd env).1)

end Fclient.Native
