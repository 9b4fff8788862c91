import Fclient.Client.DecimalFormat

/-!
# The pinpad: `PinpadActivity`

The state of the activity and what its handlers do to it. The keys are numbered as in `ShuffleKeys`;
the layout names `keyClick` as the handler of every button, but `onCreate` replaces it on `OK` and
on `C`. The layout starts `txtPin` and `txtPtc` empty and labels key `i` with the digit `i`.
-/

namespace Fclient.Client

structure Intent where
  ptc : Option JInt
  amount : Option JString

/-- The intent for which `MainActivity.enterPIN` launches the pinpad. -/
def enterPINIntent (ptc : JInt) (amount : JString) : Intent := ⟨some ptc, some amount⟩

/-- The result of an activity: `RESULT_OK` with the extra `pin`, or `RESULT_CANCELED`. -/
inductive ActivityResult
  | ok (pin : JString)
  | canceled
  deriving DecidableEq

structure PinpadActivity where
  labels : Fin 10 → JString
  pin : JString
  txtPin : JString
  txtAmount : JString
  txtPtc : JString
  result : Option ActivityResult

/-- The text of `btnKey0`, …, `btnKey9` in the layout. -/
def layoutLabels (i : Fin 10) : JString := [digitChar i]

/-- `(rnd[i] & 0xFF) % 10`. -/
def keyIndex (b : JByte) : Fin 10 := Fin.ofNat 10 b.toUInt8.toNat

/-- `ShuffleKeys`: each key in turn swaps its text with the key its random byte selects. -/
def shuffleKeys {α : Type*} (rnd : Fin 10 → JByte) (keys : Fin 10 → α) : Fin 10 → α :=
  (List.finRange 10).foldl (fun keys i =>
    let idx := keyIndex (rnd i)
    let txt := keys idx
    let keys := Function.update keys idx (keys i)
    Function.update keys i txt) keys

def txtPtc (pts : JInt) : JString :=
  if pts = 2 then jstr "Осталось 2 попытки"
  else if pts = 1 then jstr "Осталась 1 попытка"
  else []

/-- `onCreate`: without the extra, `amount` is the string `null`. -/
def onCreate (sym : DecimalFormatSymbols) (rnd : Fin 10 → JByte) (intent : Intent) :
    Except NumberFormatException PinpadActivity := do
  let labels := shuffleKeys rnd layoutLabels
  let amt := intent.amount.getD (jstr "null")
  let f ← longValueOf amt
  let df := DecimalFormat.applyPattern "#,###,###,##0.00"
  let s := df.format sym f
  let pts := intent.ptc.getD 0
  return {
    labels := labels
    pin := []
    txtPin := []
    txtAmount := jstr "Сумма: " ++ s
    txtPtc := txtPtc pts
    result := none }

/-- `s.substring(begin)`; `none` is a `StringIndexOutOfBoundsException`. -/
def substring (s : JString) (begin : Int) : Option JString :=
  if 0 ≤ begin ∧ begin ≤ s.length then some (s.drop begin.toNat) else none

/-- `keyClick` on the key with this number. -/
def keyClick (p : PinpadActivity) (i : Fin 10) : Option PinpadActivity :=
  let key := p.labels i
  let size := p.pin.length
  if size < 4 then do
    let masked ← substring (jstr "****") (3 - size)
    some { p with pin := p.pin ++ key, txtPin := masked }
  else some p

/-- The listener of `C`. -/
def resetClick (p : PinpadActivity) : PinpadActivity := { p with pin := [], txtPin := [] }

/-- The listener of `OK`, which also finishes the activity. -/
def okClick (p : PinpadActivity) : PinpadActivity := { p with result := some (.ok p.pin) }

inductive Click
  | key (i : Fin 10)
  | reset
  | ok

def click (p : PinpadActivity) : Click → Option PinpadActivity
  | .key i => keyClick p i
  | .reset => some (resetClick p)
  | .ok => some (okClick p)

end Fclient.Client
