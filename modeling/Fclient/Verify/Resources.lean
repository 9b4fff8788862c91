import Fclient.Base.Ledger
import Fclient.Verify.Transaction

/-!
# What the worker gives back

The calls of the worker as acquisitions and releases. Every prompt takes its UTF buffer and gives it
back (`neutral_promptUses`), so the uses of an accepted record balance whatever is answered
(`givenBack_accepted`). The early return on a rejected record keeps everything (`givenBack_iff`).
-/

namespace Fclient.Verify

open Base Base.Use Native

inductive Resource
  | globalRef (r : GlobalRef)
  | attachment
  | elements
  | utf
  deriving DecidableEq

def JniEvent.use : JniEvent → Use Resource
  | .newGlobalRef r => .acquire (.globalRef r)
  | .deleteGlobalRef r => .release (.globalRef r)
  | .attachCurrentThread => .acquire .attachment
  | .detachCurrentThread => .release .attachment
  | .getByteArrayElements => .acquire .elements
  | .releaseByteArrayElements => .release .elements
  | .getStringUTFChars => .acquire .utf
  | .releaseStringUTFChars => .release .utf
  | .enterPIN _ _ => .other
  | .transactionResult _ => .other

/-- All uses up to the end of the thread. -/
def uses (trd : JByteArray) (env : WorkerEnv) : List (Use Resource) :=
  (transaction trd env).2.map JniEvent.use

/-- When the thread ends, every acquisition has been matched by one release, both global references
have been deleted once, and the thread is detached if it was attached. -/
structure GivenBack (trd : JByteArray) (env : WorkerEnv) : Prop where
  balanced : Balanced (uses trd env)
  deleted : ∀ r, (uses trd env).count (.release (.globalRef r)) = 1
  detached : .release .attachment ∈ uses trd env ↔ .acquire .attachment ∈ uses trd env

def promptUses (n : Nat) : List (Use Resource) :=
  (List.range n).flatMap fun _ => [.other, .acquire .utf, .release .utf]

theorem use_promptEvents (amount : JString) (ptc n : Nat) :
    (promptEvents amount ptc n).map JniEvent.use = promptUses n := by
  unfold promptEvents
  rw [List.map_flatMap]
  rfl

theorem neutral_promptUses (n : Nat) : Neutral (promptUses n) :=
  neutral_flatMap (fun _ => neutral_other.append (neutral_pair Resource.utf)) _

theorem uses_accepted {trd : JByteArray} (h : Accepted trd) (env : WorkerEnv) :
    ∃ n result, uses trd env = callsBefore.map JniEvent.use ++ promptUses n ++
      (callsAfter result).map JniEvent.use := by
  obtain ⟨n, last, hloop⟩ :=
    exists_promptEvents (amountString env.stack trd.elements) 3 env.prompts
  refine ⟨n, decide (0 < last), ?_⟩
  rw [uses, transaction_accepted h, hloop]
  simp only [List.map_append, use_promptEvents]

theorem uses_rejected {trd : JByteArray} (h : ¬ Accepted trd) (env : WorkerEnv) :
    uses trd env = callsBefore.map JniEvent.use := by
  rw [uses, transaction_rejected h]

theorem balanced_accepted {trd : JByteArray} (h : Accepted trd) (env : WorkerEnv) :
    Balanced (uses trd env) := by
  obtain ⟨n, result, huses⟩ := uses_accepted h env
  rw [huses, balanced_insert (neutral_promptUses n)]
  refine congrArg some (funext fun r => ?_)
  rcases r with (_ | _) | _ | _ | _ <;> rfl

theorem givenBack_accepted {trd : JByteArray} (h : Accepted trd) (env : WorkerEnv) :
    GivenBack trd env := by
  obtain ⟨n, result, huses⟩ := uses_accepted h env
  refine ⟨balanced_accepted h env, fun r => ?_, ?_⟩
  · rw [(balanced_accepted h env).count, huses]
    cases r <;> simp [promptUses, callsBefore, callsAfter, JniEvent.use, List.count_flatMap,
      Function.comp_def]
  · simp [huses, callsBefore, callsAfter, JniEvent.use]

/-- **Every exit gives back** what the worker took, for the accepted records and no others. -/
theorem givenBack_iff (trd : JByteArray) (env : WorkerEnv) :
    GivenBack trd env ↔ trd.bytes.length = 9 ∧ trd.elements.take 3 = [0x9F, 0x02, 0x06] := by
  constructor
  · intro hback
    by_contra hrej
    have hdetached := hback.detached
    rw [uses_rejected hrej env] at hdetached
    exact absurd (hdetached.2 (by decide)) (by decide)
  · intro hacc
    exact givenBack_accepted hacc env

/-- The record of one rouble with `05` in its tag: the thread ends attached to the VM. -/
theorem not_givenBack_tag : ¬ GivenBack
    ⟨[-97, 0x05, 0x06, 0x00, 0x00, 0x00, 0x00, 0x01, 0x00], by decide⟩
    ⟨fun _ => 0, fun _ => ⟨jstr "4343", []⟩⟩ := by
  intro hback
  have hdetached := hback.detached
  rw [uses_rejected (by decide)] at hdetached
  exact absurd (hdetached.2 (by decide)) (by decide)

end Fclient.Verify
