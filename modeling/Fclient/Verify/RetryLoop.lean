import Fclient.Native.Transaction

/-!
# The retry loop

The loop ends at the first prompt whose buffer reads `4343`, or after as many prompts as it may make
(`retryLoop_matched`, `retryLoop_exhausted`). What it calls is in either case a number of prompts
(`exists_promptEvents`).
-/

namespace Fclient.Verify

open Native

def pinBuffer (pin : JString) (released : List UInt8) : Option UtfBuffer :=
  releaseStringUTFChars (getStringUTFChars ⟨pin, released⟩)

/-- None of the first `j` answers matches. -/
def Wrong (prompts : Nat → Prompt) (j : Nat) : Prop :=
  ∀ i < j, pinMatches (pinBuffer (prompts i).pin (prompts i).released) = false

/-- The answer `j` is the first that matches. -/
def FirstMatch (prompts : Nat → Prompt) (j : Nat) : Prop :=
  Wrong prompts j ∧ pinMatches (pinBuffer (prompts j).pin (prompts j).released) = true

/-- The calls of `n` prompts, with the counter going down from `ptc`. -/
def promptEvents (amount : JString) (ptc n : Nat) : List JniEvent :=
  (List.range n).flatMap fun k =>
    [.enterPIN (Int32.ofNat (ptc - k)) amount, .getStringUTFChars, .releaseStringUTFChars]

section RetryLoop

variable (amount : JString) {j ptc : Nat} {prompts : Nat → Prompt}

theorem promptEvents_succ (ptc n : Nat) : promptEvents amount (ptc + 1) (n + 1) =
    ([.enterPIN (Int32.ofNat (ptc + 1)) amount, .getStringUTFChars,
      .releaseStringUTFChars] : List JniEvent) ++ promptEvents amount ptc n := by
  simp only [promptEvents, List.range_succ_eq_map, List.flatMap_cons, List.flatMap_map,
    Nat.sub_zero, Nat.succ_eq_add_one, Nat.add_sub_add_right]

theorem Wrong.succ (h : Wrong prompts j)
    (hj : pinMatches (pinBuffer (prompts j).pin (prompts j).released) = false) :
    Wrong prompts (j + 1) := by
  intro i hi
  rcases Nat.lt_succ_iff_lt_or_eq.1 hi with hlt | rfl
  · exact h i hlt
  · exact hj

/-- Answers that do not match leave the loop with the later answers. -/
theorem retryLoop_wrong (hle : j ≤ ptc) (h : Wrong prompts j) :
    retryLoop amount ptc prompts =
      let rest := retryLoop amount (ptc - j) fun k => prompts (k + j)
      (promptEvents amount ptc j ++ rest.1, rest.2) := by
  induction j generalizing ptc prompts with
  | zero => rfl
  | succ j ih =>
    obtain ⟨n, rfl⟩ : ∃ n, ptc = n + 1 := ⟨ptc - 1, by omega⟩
    have hfirst := h 0 (Nat.succ_pos j)
    have hrest := @ih n (fun k => prompts (k + 1)) (by omega) fun i hi => h (i + 1) (by omega)
    unfold pinBuffer at hfirst
    simp only [retryLoop, hfirst, Bool.false_eq_true, if_false, hrest, promptEvents_succ,
      Nat.add_sub_add_right, List.append_assoc]
    rfl

/-- An answer that matches ends the loop where it stands. -/
theorem retryLoop_match
    (h : pinMatches (pinBuffer (prompts 0).pin (prompts 0).released) = true) :
    retryLoop amount (ptc + 1) prompts = (promptEvents amount (ptc + 1) 1, ptc + 1) := by
  unfold pinBuffer at h
  simp only [retryLoop, h, if_true]
  rfl

theorem retryLoop_exhausted (h : Wrong prompts ptc) :
    retryLoop amount ptc prompts = (promptEvents amount ptc ptc, 0) := by
  rw [retryLoop_wrong amount (Nat.le_refl ptc) h, Nat.sub_self]
  simp only [retryLoop, List.append_nil]

theorem retryLoop_matched (hlt : j < ptc) (h : FirstMatch prompts j) :
    retryLoop amount ptc prompts = (promptEvents amount ptc (j + 1), ptc - j) := by
  obtain ⟨n, hn⟩ : ∃ n, ptc - j = n + 1 := ⟨ptc - j - 1, by omega⟩
  have hmatch := @retryLoop_match amount n (fun k => prompts (k + j)) (by
    rw [Nat.zero_add]
    exact h.2)
  rw [retryLoop_wrong amount (Nat.le_of_lt hlt) h.1, hn]
  simp only [hmatch]
  simp [promptEvents, List.range_succ, hn]

theorem wrong_or_firstMatch (prompts : Nat → Prompt) (n : Nat) :
    Wrong prompts n ∨ ∃ j < n, FirstMatch prompts j := by
  induction n with
  | zero => exact .inl fun i hi => absurd hi (Nat.not_lt_zero i)
  | succ n ih =>
    rcases ih with hwrong | ⟨j, hj, hfirst⟩
    · cases hn : pinMatches (pinBuffer (prompts n).pin (prompts n).released) with
      | false => exact .inl (hwrong.succ hn)
      | true => exact .inr ⟨n, Nat.lt_succ_self n, hwrong, hn⟩
    · exact .inr ⟨j, Nat.lt_succ_of_lt hj, hfirst⟩

/-- However many prompts there are, they are all that the loop calls. -/
theorem exists_promptEvents (ptc : Nat) (prompts : Nat → Prompt) :
    ∃ n last, retryLoop amount ptc prompts = (promptEvents amount ptc n, last) := by
  rcases wrong_or_firstMatch prompts ptc with hwrong | ⟨j, hj, hfirst⟩
  · exact ⟨ptc, 0, retryLoop_exhausted amount hwrong⟩
  · exact ⟨j + 1, ptc - j, retryLoop_matched amount hj hfirst⟩

variable {amount}

theorem mem_promptEvents {e : JniEvent} {ptc n : Nat} (h : e ∈ promptEvents amount ptc n) :
    (∃ k, e = .enterPIN k amount) ∨ e = .getStringUTFChars ∨ e = .releaseStringUTFChars := by
  obtain ⟨k, -, he⟩ := List.mem_flatMap.1 h
  simp only [List.mem_cons, List.not_mem_nil, or_false] at he
  exact he.imp_left fun he => ⟨_, he⟩

theorem mem_retryLoop {e : JniEvent} {ptc : Nat} {prompts : Nat → Prompt}
    (h : e ∈ (retryLoop amount ptc prompts).1) :
    (∃ k, e = .enterPIN k amount) ∨ e = .getStringUTFChars ∨ e = .releaseStringUTFChars := by
  obtain ⟨n, last, hloop⟩ := exists_promptEvents amount ptc prompts
  rw [hloop] at h
  exact mem_promptEvents h

theorem amount_of_mem_retryLoop {a : JString} {k : JInt} {ptc : Nat} {prompts : Nat → Prompt}
    (h : .enterPIN k a ∈ (retryLoop amount ptc prompts).1) : a = amount := by
  rcases mem_retryLoop h with ⟨k', hk⟩ | h | h
  · exact (JniEvent.enterPIN.inj hk).2
  · cases h
  · cases h

end RetryLoop

end Fclient.Verify
