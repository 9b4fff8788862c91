import Fclient.Verify.RetryLoop

/-!
# The outcome of a transaction

The record is accepted when it is the tag `9F 02`, the length `06` and six more bytes
(`malformed_eq_false`). An accepted record is answered by one `transactionResult`; a rejected one
ends the thread without any, while `transaction` has returned `true` (`oneOutcome_iff`).
-/

namespace Fclient.Verify

open Native

/-! ## The header check -/

def Accepted (trd : JByteArray) : Prop :=
  trd.bytes.length = 9 ∧ trd.elements.take 3 = [0x9F, 0x02, 0x06]

instance (trd : JByteArray) : Decidable (Accepted trd) :=
  inferInstanceAs (Decidable (trd.bytes.length = 9 ∧ trd.elements.take 3 = [0x9F, 0x02, 0x06]))

theorem malformed_eq_false (trd : JByteArray) :
    malformed trd.elements = false ↔ Accepted trd := by
  unfold malformed Accepted
  rw [← trd.length_elements]
  generalize trd.elements = p
  match p with
  | [] => decide
  | [_] => simp
  | [_, _] => simp
  | _ :: _ :: _ :: rest => simp [and_assoc]

theorem malformed_eq_true (trd : JByteArray) : malformed trd.elements = true ↔ ¬ Accepted trd := by
  rw [← malformed_eq_false, Bool.not_eq_false]

/-- The record of one rouble. -/
def rouble : JByteArray := ⟨[-97, 0x02, 0x06, 0x00, 0x00, 0x00, 0x00, 0x01, 0x00], by decide⟩

/-! ## The calls of the thread -/

/-- What is called before the first prompt, and for a rejected record at all. -/
def callsBefore : List JniEvent :=
  [.newGlobalRef .thiz, .newGlobalRef .trd, .attachCurrentThread, .getByteArrayElements]

/-- What is called behind the last prompt. -/
def callsAfter (result : Bool) : List JniEvent :=
  [.releaseByteArrayElements, .transactionResult result, .deleteGlobalRef .thiz,
    .deleteGlobalRef .trd, .detachCurrentThread]

theorem transaction_accepted {trd : JByteArray} (h : Accepted trd) (env : WorkerEnv) :
    transaction trd env =
      let loop := retryLoop (amountString env.stack trd.elements) 3 env.prompts
      (true, callsBefore ++ loop.1 ++ callsAfter (decide (0 < loop.2))) := by
  have hm := (malformed_eq_false trd).2 h
  simp [transaction, worker, hm, getEnv, releaseEnv, callsBefore, callsAfter]

theorem transaction_rejected {trd : JByteArray} (h : ¬ Accepted trd) (env : WorkerEnv) :
    transaction trd env = (true, callsBefore) := by
  have hm := (malformed_eq_true trd).2 h
  simp [transaction, worker, hm, getEnv, callsBefore]

/-! ## Prompts -/

theorem enterPIN_mem_transaction {trd : JByteArray} (h : Accepted trd) (env : WorkerEnv) {k : JInt}
    {a : JString} : .enterPIN k a ∈ (transaction trd env).2 ↔
      .enterPIN k a ∈ (retryLoop (amountString env.stack trd.elements) 3 env.prompts).1 := by
  rw [transaction_accepted h]
  simp [callsBefore, callsAfter]

theorem enterPIN_three {trd : JByteArray} (h : Accepted trd) (env : WorkerEnv) :
    .enterPIN 3 (amountString env.stack trd.elements) ∈ (transaction trd env).2 := by
  rw [enterPIN_mem_transaction h]
  simp only [retryLoop]
  split <;> exact List.mem_cons_self

theorem accepted_of_enterPIN {trd : JByteArray} {env : WorkerEnv} {k : JInt} {a : JString}
    (h : .enterPIN k a ∈ (transaction trd env).2) : Accepted trd := by
  by_contra hrej
  rw [transaction_rejected hrej] at h
  simp [callsBefore] at h

theorem amount_of_enterPIN {trd : JByteArray} {env : WorkerEnv} {k : JInt} {a : JString}
    (h : .enterPIN k a ∈ (transaction trd env).2) : a = amountString env.stack trd.elements :=
  amount_of_mem_retryLoop ((enterPIN_mem_transaction (accepted_of_enterPIN h) env).1 h)

/-! ## Reports -/

def JniEvent.isReport : JniEvent → Bool
  | .transactionResult _ => true
  | _ => false

/-- How often the caller is told the outcome: by `false` as the return value, or by a callback. -/
def timesTold (r : Bool × List JniEvent) : Nat :=
  (if r.1 = false then 1 else 0) + r.2.countP JniEvent.isReport

/-- The caller is told the outcome once, and told of a failure when the record is rejected. -/
def OneOutcome (trd : JByteArray) (env : WorkerEnv) : Prop :=
  timesTold (transaction trd env) = 1 ∧
    (¬ Accepted trd → (transaction trd env).1 = false ∨
      .transactionResult false ∈ (transaction trd env).2)

theorem countP_retryLoop (amount : JString) (ptc : Nat) (prompts : Nat → Prompt) :
    (retryLoop amount ptc prompts).1.countP JniEvent.isReport = 0 := by
  refine List.countP_eq_zero.2 fun e he => ?_
  rcases mem_retryLoop he with ⟨k, rfl⟩ | rfl | rfl <;> exact Bool.false_ne_true

theorem timesTold_accepted {trd : JByteArray} (h : Accepted trd) (env : WorkerEnv) :
    timesTold (transaction trd env) = 1 := by
  have hloop := countP_retryLoop (amountString env.stack trd.elements) 3 env.prompts
  rw [transaction_accepted h]
  simp only [timesTold, List.countP_append, hloop]
  rfl

theorem timesTold_rejected {trd : JByteArray} (h : ¬ Accepted trd) (env : WorkerEnv) :
    timesTold (transaction trd env) = 0 := by
  rw [transaction_rejected h]
  rfl

/-- **Exactly one outcome**: for the accepted records and no others. -/
theorem oneOutcome_iff (trd : JByteArray) (env : WorkerEnv) :
    OneOutcome trd env ↔ trd.bytes.length = 9 ∧ trd.elements.take 3 = [0x9F, 0x02, 0x06] := by
  constructor
  · rintro ⟨hone, -⟩
    by_contra hrej
    rw [timesTold_rejected hrej env] at hone
    exact absurd hone (by decide)
  · intro hacc
    exact ⟨timesTold_accepted hacc env, fun hrej => absurd hacc hrej⟩

/-- The record of one rouble with a length byte of `05`: `transaction` returns `true`, and nothing
is reported. -/
theorem not_oneOutcome_length : ¬ OneOutcome
    ⟨[-97, 0x02, 0x05, 0x00, 0x00, 0x00, 0x00, 0x01, 0x00], by decide⟩
    ⟨fun _ => 0, fun _ => ⟨jstr "4343", []⟩⟩ := by
  rintro ⟨hone, -⟩
  rw [timesTold_rejected (by decide)] at hone
  exact absurd hone (by decide)

end Fclient.Verify
