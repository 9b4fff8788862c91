import Fclient.Base.Run
import Fclient.Client.Pinpad

/-!
# PIN entry

`entered labels clicks` is what a sequence of clicks means: the labels of the first four digit keys
since the last `C`. `Entry` relates it to the state of the activity, every click keeps it
(`Entry.click`), and so it holds after every sequence of clicks (`pinpad_entry`).
-/

namespace Fclient.Verify

open Base Client

/-! ## The shuffled labels -/

theorem shuffleKeys_forall {α : Type*} (P : α → Prop) (rnd : Fin 10 → JByte) {keys : Fin 10 → α}
    (h : ∀ i, P (keys i)) : ∀ i, P (shuffleKeys rnd keys i) := by
  unfold shuffleKeys
  generalize List.finRange 10 = is
  induction is generalizing keys with
  | nil => exact h
  | cons i is ih =>
    refine ih fun j => ?_
    simp only [Function.update_apply]
    split_ifs <;> exact h _

theorem length_layoutLabels (i : Fin 10) : (layoutLabels i).length = 1 := rfl

/-! ## What has been entered -/

def Click.digit : Click → Option (Fin 10)
  | .key i => some i
  | _ => none

def Click.isReset : Click → Bool
  | .reset => true
  | _ => false

/-- The digit keys clicked since the last `C`, or since the start. -/
def sinceReset (clicks : List Click) : List (Fin 10) :=
  ((clicks.reverse.takeWhile fun c => !Click.isReset c).reverse).filterMap Click.digit

def entered (labels : Fin 10 → JString) (clicks : List Click) : JString :=
  ((sinceReset clicks).take 4).flatMap labels

theorem sinceReset_key (clicks : List Click) (i : Fin 10) :
    sinceReset (clicks ++ [Click.key i]) = sinceReset clicks ++ [i] := by
  simp [sinceReset, Click.isReset, Click.digit]

theorem sinceReset_ok (clicks : List Click) :
    sinceReset (clicks ++ [Click.ok]) = sinceReset clicks := by
  simp [sinceReset, Click.isReset, Click.digit]

theorem sinceReset_reset (clicks : List Click) :
    sinceReset (clicks ++ [Click.reset]) = [] := by
  simp [sinceReset, Click.isReset]

theorem length_entered {labels : Fin 10 → JString} (h : ∀ i, (labels i).length = 1)
    (clicks : List Click) : (entered labels clicks).length = min 4 (sinceReset clicks).length := by
  simp [entered, List.length_flatMap, h]

/-! ## The invariant -/

/-- After `clicks`, the state of the pinpad shows what they entered. -/
structure Entry (p₀ : PinpadActivity) (clicks : List Click) (p : PinpadActivity) : Prop where
  labels : p.labels = p₀.labels
  pin : p.pin = entered p.labels clicks
  txtPin : p.txtPin = List.replicate p.pin.length 0x2A

theorem substring_stars {size : Nat} (h : size < 4) :
    substring (jstr "****") (3 - (size : Int)) = some (List.replicate (size + 1) 0x2A) := by
  match size, h with
  | 0, _ => decide
  | 1, _ => decide
  | 2, _ => decide
  | 3, _ => decide

section Step

variable {p₀ p : PinpadActivity} {clicks : List Click}
  (hlabels : ∀ i, (p₀.labels i).length = 1)

include hlabels in
theorem Entry.keyClick (h : Entry p₀ clicks p) (i : Fin 10) :
    ∃ p', keyClick p i = some p' ∧ Entry p₀ (clicks ++ [Click.key i]) p' := by
  have hlen : p.pin.length = min 4 (sinceReset clicks).length := by
    rw [h.pin]
    exact length_entered (by rw [h.labels]; exact hlabels) clicks
  by_cases hsize : p.pin.length < 4
  · have hkey : (p.labels i).length = 1 := by
      rw [h.labels]
      exact hlabels i
    refine ⟨{ p with
      pin := p.pin ++ p.labels i
      txtPin := List.replicate (p.pin.length + 1) 0x2A }, ?_, h.labels, ?_, ?_⟩
    · simp only [Client.keyClick, hsize, if_true, substring_stars hsize]
      rfl
    · have htake : (sinceReset clicks).take 4 = sinceReset clicks :=
        List.take_of_length_le (by omega)
      have htake' : (sinceReset clicks ++ [i]).take 4 = sinceReset clicks ++ [i] :=
        List.take_of_length_le (by rw [List.length_append, List.length_singleton]; omega)
      have hpin := h.pin
      unfold entered at hpin ⊢
      rw [htake] at hpin
      rw [sinceReset_key, htake', List.flatMap_append, ← hpin]
      simp
    · simp only [List.length_append, hkey]
  · have htake : (sinceReset clicks ++ [i]).take 4 = (sinceReset clicks).take 4 :=
      List.take_append_of_le_length (by omega)
    refine ⟨p, by simp only [Client.keyClick, hsize, if_false], h.labels, ?_, h.txtPin⟩
    rw [h.pin, entered, entered, sinceReset_key, htake]

/-- **Every click keeps the invariant**, and none of them throws. -/
theorem Entry.click (hlabels : ∀ i, (p₀.labels i).length = 1) (h : Entry p₀ clicks p) (c : Click) :
    ∃ p', click p c = some p' ∧ Entry p₀ (clicks ++ [c]) p' := by
  cases c with
  | key i => exact h.keyClick hlabels i
  | reset =>
    refine ⟨resetClick p, rfl, h.labels, ?_, rfl⟩
    rw [entered, sinceReset_reset]
    rfl
  | ok =>
    refine ⟨okClick p, rfl, h.labels, ?_, h.txtPin⟩
    rw [entered, sinceReset_ok]
    exact h.pin

end Step

theorem entry_run {p₀ : PinpadActivity} (hlabels : ∀ i, (p₀.labels i).length = 1)
    (hstart : Entry p₀ [] p₀) (clicks : List Click) :
    ∃ p, run click p₀ clicks = some p ∧ Entry p₀ clicks p := by
  induction clicks using List.reverseRecOn with
  | nil => exact ⟨p₀, rfl, hstart⟩
  | append_singleton clicks c ih =>
    obtain ⟨p, hrun, hp⟩ := ih
    obtain ⟨p', hstep, hp'⟩ := hp.click hlabels c
    exact ⟨p', run_concat hrun hstep, hp'⟩

/-! ## From `onCreate` on -/

theorem onCreate_eq_ok {sym : DecimalFormatSymbols} {rnd : Fin 10 → JByte} {intent : Intent}
    {p : PinpadActivity} (h : onCreate sym rnd intent = .ok p) :
    p.labels = shuffleKeys rnd layoutLabels ∧ p.pin = [] ∧ p.txtPin = [] ∧ p.result = none := by
  cases hf : longValueOf (intent.amount.getD (jstr "null")) with
  | error e =>
    simp only [onCreate, hf, bind, Except.bind, reduceCtorEq] at h
  | ok f =>
    simp only [onCreate, hf, bind, Except.bind, pure, Except.pure, Except.ok.injEq] at h
    subst h
    exact ⟨rfl, rfl, rfl, rfl⟩

theorem click_result {p p' : PinpadActivity} {c : Click} (h : click p c = some p') :
    p'.result = p.result ∨ p'.result = some (.ok p'.pin) := by
  cases c with
  | key i =>
    simp only [Client.click, keyClick] at h
    split at h
    · obtain ⟨masked, -, h⟩ := Option.bind_eq_some_iff.1 h
      cases h
      exact .inl rfl
    · cases h
      exact .inl rfl
  | reset =>
    cases h
    exact .inl rfl
  | ok =>
    cases h
    exact .inr rfl

/-- With an amount that parses, `onCreate` succeeds and shows it. -/
theorem onCreate_of_longValueOf (sym : DecimalFormatSymbols) (rnd : Fin 10 → JByte)
    (intent : Intent) {f : Int} (h : longValueOf (intent.amount.getD (jstr "null")) = .ok f) :
    ∃ p, onCreate sym rnd intent = .ok p ∧ p.txtAmount = jstr "Сумма: " ++
      (DecimalFormat.applyPattern "#,###,###,##0.00").format sym f := by
  simp only [onCreate, h, bind, Except.bind, pure, Except.pure]
  exact ⟨_, rfl, rfl⟩

/-- **PIN entry.** After every sequence of clicks, no `substring` has gone out of range, the PIN is
what the clicks entered and no longer than four characters, as many asterisks show, and an `OK` has
set this PIN as the result. -/
theorem pinpad_entry (sym : DecimalFormatSymbols) (rnd : Fin 10 → JByte) (intent : Intent)
    {p₀ : PinpadActivity} (h : onCreate sym rnd intent = .ok p₀) (clicks : List Click) :
    ∃ p, run click p₀ clicks = some p ∧ p.labels = shuffleKeys rnd layoutLabels ∧
      p.pin.length ≤ 4 ∧ p.pin = entered p.labels clicks ∧
      p.txtPin = List.replicate p.pin.length 0x2A ∧
      ∀ pre, clicks = pre ++ [.ok] → p.result = some (.ok p.pin) := by
  obtain ⟨hshuffle, hpin, htxt, -⟩ := onCreate_eq_ok h
  have hlabels : ∀ i, (p₀.labels i).length = 1 := by
    rw [hshuffle]
    exact shuffleKeys_forall (fun l : JString => l.length = 1) rnd length_layoutLabels
  have hstart : Entry p₀ [] p₀ := ⟨rfl, hpin, by rw [htxt, hpin]; rfl⟩
  obtain ⟨p, hrun, hp⟩ := entry_run hlabels hstart clicks
  refine ⟨p, hrun, hp.labels.trans hshuffle, ?_, hp.pin, hp.txtPin, ?_⟩
  · rw [hp.pin, length_entered (by rw [hp.labels]; exact hlabels)]
    exact Nat.min_le_left _ _
  · rintro pre rfl
    obtain ⟨q, hq, -⟩ := entry_run hlabels hstart pre
    have hok := run_concat hq (a := .ok) rfl
    rw [hrun] at hok
    cases hok
    rfl

def symbolsEn : DecimalFormatSymbols where
  decimalSeparator := 0x2E
  groupingSeparator := 0x2C
  ne := by decide
  decimal_not_digit := by unfold IsDigit; decide
  grouping_not_digit := by unfold IsDigit; decide

theorem pinpad_entry_two : ∃ p₀,
    onCreate symbolsEn (fun _ => 0) ⟨some 3, some (jstr "000000000100")⟩ = .ok p₀ ∧
      ∃ p, run click p₀ [.key 4, .key 3, .ok] = some p ∧
        p.labels = shuffleKeys (fun _ => 0) layoutLabels ∧ p.pin.length ≤ 4 ∧
        p.pin = entered p.labels [.key 4, .key 3, .ok] ∧
        p.txtPin = List.replicate p.pin.length 0x2A ∧
        ∀ pre : List Click, [.key 4, .key 3, .ok] = pre ++ [.ok] → p.result = some (.ok p.pin) := by
  have hamount : longValueOf (jstr "000000000100") = .ok 100 := by decide
  obtain ⟨p₀, h, -⟩ := onCreate_of_longValueOf symbolsEn (fun _ => 0)
    ⟨some 3, some (jstr "000000000100")⟩ hamount
  exact ⟨p₀, h, pinpad_entry symbolsEn _ _ h _⟩

end Fclient.Verify
