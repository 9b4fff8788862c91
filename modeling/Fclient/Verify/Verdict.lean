import Fclient.Verify.Transaction
import Fclient.Verify.Utf8

/-!
# The verdict of the retry loop

The buffer is read after `ReleaseStringUTFChars`. As long as its bytes stay there the verdict is the
one on the answers, as Java strings (`pin_verdict`); in general it is the one on what the released
buffers hold, whatever the answers are (`sameOutcome_iff`).
-/

namespace Fclient.Verify

open Native

/-! ## What the caller sees -/

def enterPINCalls (events : List JniEvent) : List (JInt × JString) :=
  events.filterMap fun e => match e with
    | .enterPIN ptc amount => some (ptc, amount)
    | _ => none

def reports (events : List JniEvent) : List Bool :=
  events.filterMap fun e => match e with
    | .transactionResult result => some result
    | _ => none

theorem enterPINCalls_promptEvents (amount : JString) (ptc n : Nat) :
    enterPINCalls (promptEvents amount ptc n) =
      (List.range n).map fun k => (Int32.ofNat (ptc - k), amount) := by
  unfold enterPINCalls promptEvents
  rw [List.filterMap_flatMap, List.map_eq_flatMap]
  rfl

theorem reports_promptEvents (amount : JString) (ptc n : Nat) :
    reports (promptEvents amount ptc n) = [] := by
  unfold reports promptEvents
  rw [List.filterMap_flatMap, List.flatMap_eq_nil_iff]
  intro k _
  rfl

section Outcome

variable {trd : JByteArray} (h : Accepted trd) {env : WorkerEnv}

include h in
theorem outcome_of_retryLoop {n ptc : Nat}
    (hloop : retryLoop (amountString env.stack trd.elements) 3 env.prompts =
      (promptEvents (amountString env.stack trd.elements) 3 n, ptc)) :
    enterPINCalls (transaction trd env).2 = (List.range n).map (fun k =>
        (Int32.ofNat (3 - k), amountString env.stack trd.elements)) ∧
      reports (transaction trd env).2 = [decide (0 < ptc)] := by
  rw [transaction_accepted h, hloop]
  simp only [← enterPINCalls_promptEvents]
  constructor
  · unfold enterPINCalls
    rw [List.filterMap_append, List.filterMap_append]
    exact List.append_nil _
  · have hnone := reports_promptEvents (amountString env.stack trd.elements) 3 n
    unfold reports at hnone ⊢
    rw [List.filterMap_append, List.filterMap_append, hnone]
    rfl

include h in
/-- A first match among the three answers: prompts up to it, and success. -/
theorem outcome_of_firstMatch {j : Nat} (hj : j < 3) (hfirst : FirstMatch env.prompts j) :
    enterPINCalls (transaction trd env).2 = (List.range (j + 1)).map (fun k =>
        (Int32.ofNat (3 - k), amountString env.stack trd.elements)) ∧
      reports (transaction trd env).2 = [true] := by
  have houtcome := outcome_of_retryLoop h (retryLoop_matched _ hj hfirst)
  rwa [decide_eq_true (Nat.sub_pos_of_lt hj)] at houtcome

include h in
/-- No match: three prompts, and failure. -/
theorem outcome_of_wrong (hwrong : Wrong env.prompts 3) :
    enterPINCalls (transaction trd env).2 = (List.range 3).map (fun k =>
        (Int32.ofNat (3 - k), amountString env.stack trd.elements)) ∧
      reports (transaction trd env).2 = [false] :=
  outcome_of_retryLoop h (retryLoop_exhausted _ hwrong)

/-! ## Buffers that stay readable -/

/-- Releasing the UTF buffer of the answer leaves its bytes in place. -/
def Intact (prompt : Prompt) : Prop :=
  ∀ utf, getStringUTFChars prompt = some utf → utf.stale = utf.live

def Readable (env : WorkerEnv) : Prop := ∀ k, Intact (env.prompts k)

theorem intact_iff {prompt : Prompt} :
    Intact prompt ↔ prompt.released = encodeUtf prompt.pin := by
  constructor
  · intro h
    exact h _ rfl
  · rintro h utf hutf
    obtain rfl := Option.some.inj hutf
    exact h

/-- A comparison of the string that the buffer was made from. -/
theorem pinMatches_intact {v : JString} {released : List UInt8} (h : Intact ⟨v, released⟩) :
    pinMatches (pinBuffer v released) = true ↔ v = jstr "4343" := by
  have hliteral : pinLiteral = encodeUtf (jstr "4343") := rfl
  have hreleased : released = encodeUtf v := intact_iff.1 h
  have hbuffer : cString released = encodeUtf v := by
    rw [hreleased, cString_encodeUtf]
  show (cString released == pinLiteral) = true ↔ _
  rw [hbuffer, hliteral, beq_iff_eq]
  exact encodeUtf_injective.eq_iff

theorem wrong_readable (hread : Readable env) (n : Nat) :
    Wrong env.prompts n ↔ ∀ k < n, (env.prompts k).pin ≠ jstr "4343" := by
  refine forall₂_congr fun k _ => ?_
  rw [← Bool.not_eq_true, pinMatches_intact (hread k)]

include h in
/-- **The verdict on the answers.** The prompts count down from three with the amount of the record,
up to the first answer that is the PIN; success is reported exactly when there is one. -/
theorem pin_verdict (hread : Readable env) : ∃ n, 1 ≤ n ∧ n ≤ 3 ∧
    enterPINCalls (transaction trd env).2 = (List.range n).map (fun k =>
      (Int32.ofNat (3 - k), amountString env.stack trd.elements)) ∧
    (∀ k, k + 1 < n → (env.prompts k).pin ≠ jstr "4343") ∧
    (n < 3 → (env.prompts (n - 1)).pin = jstr "4343") ∧
    ∃ result, reports (transaction trd env).2 = [result] ∧
      (result = true ↔ ∃ k < 3, (env.prompts k).pin = jstr "4343") := by
  rcases wrong_or_firstMatch env.prompts 3 with hwrong | ⟨j, hj, hfirst⟩
  · obtain ⟨hcalls, hreports⟩ := outcome_of_wrong h hwrong
    rw [wrong_readable hread] at hwrong
    refine ⟨3, by omega, by omega, hcalls, fun k hk => hwrong k (by omega), by omega, false,
      hreports, ?_⟩
    simpa using hwrong
  · obtain ⟨hcalls, hreports⟩ := outcome_of_firstMatch h hj hfirst
    obtain ⟨hwrong, hmatch⟩ := hfirst
    rw [wrong_readable hread] at hwrong
    rw [pinMatches_intact (hread j)] at hmatch
    exact ⟨j + 1, by omega, by omega, hcalls, fun k hk => hwrong k (by omega), fun _ => hmatch,
      true, hreports, iff_of_true rfl ⟨j, hj, hmatch⟩⟩

/-! ## Buffers that do not -/

/-- The same answers with other content of the released buffers. -/
def envOf (stack : Fin 13 → UInt8) (pins : Nat → JString) (released : Nat → List UInt8) :
    WorkerEnv :=
  ⟨stack, fun k => ⟨pins k, released k⟩⟩

/-- The released buffer `j` is the first that reads as the PIN. -/
def FirstStale (released : Nat → List UInt8) (j : Nat) : Prop :=
  (∀ i < j, cString (released i) ≠ pinLiteral) ∧ cString (released j) = pinLiteral

def SameOutcome (events₁ events₂ : List JniEvent) : Prop :=
  enterPINCalls events₁ = enterPINCalls events₂ ∧ reports events₁ = reports events₂

theorem firstMatch_envOf (stack : Fin 13 → UInt8) (pins : Nat → JString)
    (released : Nat → List UInt8) (j : Nat) :
    FirstMatch (envOf stack pins released).prompts j ↔ FirstStale released j := by
  refine and_congr (forall₂_congr fun i _ => ?_) ?_
  · show (cString (released i) == pinLiteral) = false ↔ _
    exact beq_eq_false_iff_ne
  · show (cString (released j) == pinLiteral) = true ↔ _
    exact beq_iff_eq

theorem FirstMatch.unique {prompts : Nat → Prompt} {i j : Nat} (hi : FirstMatch prompts i)
    (hj : FirstMatch prompts j) : i = j := by
  rcases Nat.lt_trichotomy i j with hlt | heq | hgt
  · cases hi.2.symm.trans (hj.1 i hlt)
  · exact heq
  · cases hj.2.symm.trans (hi.1 j hgt)

theorem not_firstMatch_of_wrong {prompts : Nat → Prompt} {n j : Nat} (h : Wrong prompts n)
    (hj : j < n) : ¬ FirstMatch prompts j := by
  intro hfirst
  cases hfirst.2.symm.trans (h j hj)

include h in
/-- The outcome tells which prompt was the first to match. -/
theorem sameOutcome_iff_firstMatch {env₁ env₂ : WorkerEnv} (hstack : env₁.stack = env₂.stack) :
    SameOutcome (transaction trd env₁).2 (transaction trd env₂).2 ↔
      ∀ j < 3, FirstMatch env₁.prompts j ↔ FirstMatch env₂.prompts j := by
  unfold SameOutcome
  rcases wrong_or_firstMatch env₁.prompts 3 with hwrong₁ | ⟨i, hi, hfirst₁⟩
  · obtain ⟨hcalls₁, hreports₁⟩ := outcome_of_wrong h hwrong₁
    rcases wrong_or_firstMatch env₂.prompts 3 with hwrong₂ | ⟨j, hj, hfirst₂⟩
    · obtain ⟨hcalls₂, hreports₂⟩ := outcome_of_wrong h hwrong₂
      rw [hcalls₁, hcalls₂, hreports₁, hreports₂, hstack]
      refine iff_of_true ⟨rfl, rfl⟩ fun j hj => ?_
      exact iff_of_false (not_firstMatch_of_wrong hwrong₁ hj) (not_firstMatch_of_wrong hwrong₂ hj)
    · obtain ⟨-, hreports₂⟩ := outcome_of_firstMatch h hj hfirst₂
      rw [hreports₁, hreports₂]
      refine iff_of_false (fun hsame => by cases hsame.2) fun hiff => ?_
      exact not_firstMatch_of_wrong hwrong₁ hj ((hiff j hj).2 hfirst₂)
  · obtain ⟨hcalls₁, hreports₁⟩ := outcome_of_firstMatch h hi hfirst₁
    rcases wrong_or_firstMatch env₂.prompts 3 with hwrong₂ | ⟨j, hj, hfirst₂⟩
    · obtain ⟨-, hreports₂⟩ := outcome_of_wrong h hwrong₂
      rw [hreports₁, hreports₂]
      refine iff_of_false (fun hsame => by cases hsame.2) fun hiff => ?_
      exact not_firstMatch_of_wrong hwrong₂ hi ((hiff i hi).1 hfirst₁)
    · obtain ⟨hcalls₂, hreports₂⟩ := outcome_of_firstMatch h hj hfirst₂
      rw [hcalls₁, hcalls₂, hreports₁, hreports₂, hstack]
      constructor
      · rintro ⟨hsame, -⟩
        have hij : i = j := by simpa using congrArg List.length hsame
        subst hij
        intro k _
        constructor
        · intro hk
          rwa [hk.unique hfirst₁]
        · intro hk
          rwa [hk.unique hfirst₂]
      · intro hiff
        have hij : i = j := ((hiff i hi).1 hfirst₁).unique hfirst₂
        exact ⟨by rw [hij], rfl⟩

include h in
/-- **The verdict on released memory.** With the same answers, two runs have the same outcome
exactly when the same released buffer is the first to read as the PIN; for no record and answers do
all runs. -/
theorem sameOutcome_iff (stack : Fin 13 → UInt8) (pins : Nat → JString) :
    (∀ released₁ released₂ : Nat → List UInt8,
      SameOutcome (transaction trd (envOf stack pins released₁)).2
          (transaction trd (envOf stack pins released₂)).2 ↔
        ∀ j < 3, FirstStale released₁ j ↔ FirstStale released₂ j) ∧
    ∃ released₁ released₂ : Nat → List UInt8,
      ¬ SameOutcome (transaction trd (envOf stack pins released₁)).2
        (transaction trd (envOf stack pins released₂)).2 := by
  have hiff : ∀ released₁ released₂ : Nat → List UInt8,
      SameOutcome (transaction trd (envOf stack pins released₁)).2
          (transaction trd (envOf stack pins released₂)).2 ↔
        ∀ j < 3, FirstStale released₁ j ↔ FirstStale released₂ j := by
    intro released₁ released₂
    rw [@sameOutcome_iff_firstMatch trd h (envOf stack pins released₁) (envOf stack pins released₂)
      rfl]
    refine forall₂_congr fun j _ => ?_
    rw [firstMatch_envOf, firstMatch_envOf]
  refine ⟨hiff, fun _ => pinLiteral, fun _ => [], fun hsame => ?_⟩
  have hfirst : FirstStale (fun _ => pinLiteral) 0 :=
    ⟨fun i hi => absurd hi (Nat.not_lt_zero i), rfl⟩
  cases (((hiff _ _).1 hsame 0 (by omega)).1 hfirst).2

end Outcome

/-- Every second answer is the PIN. -/
def secondPin (k : Nat) : JString := jstr (if k % 2 = 1 then "4343" else "0000")

theorem pin_verdict_second : reports (transaction rouble (envOf (fun _ => 0) secondPin
    fun k => encodeUtf (secondPin k))).2 = [true] := by
  have hacc : Accepted rouble := by decide
  have hread : Readable (envOf (fun _ => 0) secondPin fun k => encodeUtf (secondPin k)) :=
    fun _ => intact_iff.2 rfl
  obtain ⟨-, -, -, -, -, -, result, hreports, hresult⟩ := pin_verdict hacc hread
  rw [hreports, hresult.2 ⟨1, by omega, rfl⟩]

/-- One rouble, and `4343` at every prompt. -/
def sampleRun (released : List UInt8) : List JniEvent :=
  (transaction rouble (envOf (fun _ => 0) (fun _ => jstr "4343") fun _ => released)).2

/-- The bytes behind the terminating zero do not matter. -/
theorem sameOutcome_zero :
    SameOutcome (sampleRun (pinLiteral ++ [0])) (sampleRun (pinLiteral ++ [0, 7])) :=
  ((sameOutcome_iff (by decide) _ _).1 _ _).2 fun _ _ => Iff.rfl

/-- A buffer that keeps its bytes, and one that is wiped. -/
theorem not_sameOutcome_wiped :
    ¬ SameOutcome (sampleRun (pinLiteral ++ [0])) (sampleRun [0, 0, 0, 0, 0]) := by
  rintro ⟨-, hreports⟩
  exact absurd hreports (by decide)

end Fclient.Verify
