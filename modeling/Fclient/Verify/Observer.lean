import Fclient.Base.Pattern
import Fclient.Verify.Pinpad
import Fclient.Verify.Shuffle

/-!
# Looking over the shoulder

What the pinpad gives away. Whoever sees which keys are clicked, but not their labels, learns where
the entry repeats a digit and nothing else (`confirms_iff_samePattern`): a renaming of the digits is
a layout that some random bytes produce. The asterisks only give away how many digits count
(`screen_eq_iff`), and no layout takes a PIN away from the user (`existsUnique_keys`).
-/

namespace Fclient.Verify

open Base Client

/-- The characters of a PIN with these digits. -/
def pinOf (ds : List (Fin 10)) : JString := ds.map fun d => digitChar d.val

/-- With the random bytes `rnd`, these clicks end with `pin` as the result of the pinpad. -/
def Confirms (sym : DecimalFormatSymbols) (rnd : Fin 10 → JByte) (intent : Intent)
    (clicks : List Click) (pin : JString) : Prop :=
  ∃ p₀ p, onCreate sym rnd intent = .ok p₀ ∧ run click p₀ clicks = some p ∧
    p.result = some (.ok pin)

/-! ## The layout as a permutation of the digits -/

theorem entered_comp (σ : Equiv.Perm (Fin 10)) (clicks : List Click) :
    entered (layoutLabels ∘ σ) clicks = pinOf (((sinceReset clicks).take 4).map σ) := by
  unfold entered pinOf
  rw [List.map_map, List.map_eq_flatMap]
  rfl

theorem digitChar_injective : Function.Injective fun d : Fin 10 => digitChar d.val := by
  intro a b
  decide +revert

theorem pinOf_injective : Function.Injective pinOf := digitChar_injective.list_map

/-! ## The confirmed PIN -/

section Confirmed

variable {sym : DecimalFormatSymbols} {rnd : Fin 10 → JByte} {intent : Intent}
  {p₀ p q : PinpadActivity} {clicks as bs : List Click} {pin : JString} {f : Int}

theorem entry_onCreate (h : onCreate sym rnd intent = .ok p₀) :
    (∀ i, (p₀.labels i).length = 1) ∧ Entry p₀ [] p₀ := by
  obtain ⟨hshuffle, hpin, htxt, -⟩ := onCreate_eq_ok h
  refine ⟨?_, rfl, hpin, by rw [htxt, hpin]; rfl⟩
  rw [hshuffle]
  exact shuffleKeys_forall (fun l : JString => l.length = 1) rnd length_layoutLabels

/-- An `OK` confirms what the clicks before it entered. -/
theorem run_ok (h : onCreate sym rnd intent = .ok p₀) (clicks : List Click) : ∃ p,
    run click p₀ (clicks ++ [.ok]) = some p ∧
      p.result = some (.ok (entered (shuffleKeys rnd layoutLabels) clicks)) := by
  obtain ⟨hlabels, hstart⟩ := entry_onCreate h
  obtain ⟨q, hq, hentry⟩ := entry_run hlabels hstart clicks
  refine ⟨okClick q, run_concat hq rfl, ?_⟩
  have hshuffle : q.labels = shuffleKeys rnd layoutLabels :=
    hentry.labels.trans (onCreate_eq_ok h).1
  rw [← hshuffle, ← hentry.pin]
  rfl

theorem Confirms.eq_entered (h : Confirms sym rnd intent (clicks ++ [.ok]) pin) :
    pin = entered (shuffleKeys rnd layoutLabels) clicks := by
  obtain ⟨p₀, p, hp₀, hrun, hres⟩ := h
  obtain ⟨p', hrun', hres'⟩ := run_ok hp₀ clicks
  cases hrun.symm.trans hrun'
  cases hres.symm.trans hres'
  rfl

theorem confirms_iff (hamount : longValueOf (intent.amount.getD (jstr "null")) = .ok f) :
    Confirms sym rnd intent (clicks ++ [.ok]) pin ↔
      pin = entered (shuffleKeys rnd layoutLabels) clicks := by
  constructor
  · exact Confirms.eq_entered
  · rintro rfl
    obtain ⟨p₀, h, -⟩ := onCreate_of_longValueOf sym rnd intent hamount
    obtain ⟨p, hrun, hres⟩ := run_ok h clicks
    exact ⟨p₀, p, h, hrun, hres⟩

/-- The keys of a confirmed PIN, whatever the layout. -/
theorem confirms_pinOf_iff (hamount : longValueOf (intent.amount.getD (jstr "null")) = .ok f)
    {σ : Equiv.Perm (Fin 10)} (hσ : shuffleKeys rnd layoutLabels = layoutLabels ∘ σ)
    (ds : List (Fin 10)) :
    Confirms sym rnd intent (clicks ++ [.ok]) (pinOf ds) ↔
      ((sinceReset clicks).take 4).map σ = ds := by
  rw [confirms_iff hamount, hσ, entered_comp, pinOf_injective.eq_iff, eq_comm]

end Confirmed

/-- **Over the shoulder.** From the keys that were clicked, any PIN is possible that repeats its
digits where they repeat, and no other. -/
theorem confirms_iff_samePattern (sym : DecimalFormatSymbols) (intent : Intent) {f : Int}
    (hamount : longValueOf (intent.amount.getD (jstr "null")) = .ok f) (clicks : List Click)
    (ds : List (Fin 10)) :
    (∃ rnd, Confirms sym rnd intent (clicks ++ [.ok]) (pinOf ds)) ↔
      SamePattern ((sinceReset clicks).take 4) ds := by
  rw [samePattern_iff]
  constructor
  · rintro ⟨rnd, h⟩
    obtain ⟨σ, hσ⟩ := exists_perm rnd
    exact ⟨σ, (confirms_pinOf_iff hamount (hσ layoutLabels) ds).1 h⟩
  · rintro ⟨σ, h⟩
    obtain ⟨rnd, hσ⟩ := exists_rnd σ
    exact ⟨rnd, (confirms_pinOf_iff hamount (hσ layoutLabels) ds).2 h⟩

/-- Two keys, the first of them again: a PIN like `434` is possible. -/
theorem confirms_iff_samePattern_three :
    ∃ rnd, Confirms symbolsEn rnd ⟨some 3, some (jstr "000000000100")⟩
      ([Click.key 7, Click.reset, Click.key 0, Click.key 1, Click.key 0] ++ [Click.ok])
      (pinOf [4, 3, 4]) := by
  have hamount : longValueOf (jstr "000000000100") = .ok 100 := by decide
  refine (confirms_iff_samePattern symbolsEn ⟨some 3, some (jstr "000000000100")⟩ hamount _ _).2 ?_
  exact samePattern_iff.2 ⟨Equiv.swap 0 4 * Equiv.swap 1 3, by decide⟩

/-! ## Every PIN can be typed -/

theorem sinceReset_keys (clicks : List Click) (ks : List (Fin 10)) :
    sinceReset (clicks ++ [Click.reset] ++ ks.map Click.key) = ks := by
  induction ks using List.reverseRecOn with
  | nil => rw [List.map_nil, List.append_nil, sinceReset_reset]
  | append_singleton ks k ih =>
    rw [List.map_append, ← List.append_assoc, List.map_singleton, sinceReset_key, ih]

/-- **Typing a PIN.** In every layout and after any clicks, `C` and then one sequence of at most
four keys confirm a PIN of at most four digits. -/
theorem existsUnique_keys (sym : DecimalFormatSymbols) (rnd : Fin 10 → JByte) (intent : Intent)
    {f : Int} (hamount : longValueOf (intent.amount.getD (jstr "null")) = .ok f)
    (clicks : List Click) (ds : List (Fin 10)) (hlen : ds.length ≤ 4) :
    ∃! ks : List (Fin 10), ks.length ≤ 4 ∧
      Confirms sym rnd intent (clicks ++ [.reset] ++ ks.map .key ++ [.ok]) (pinOf ds) := by
  obtain ⟨σ, hσ⟩ := exists_perm rnd
  have htyped : ∀ ks : List (Fin 10), ks.length ≤ 4 →
      (Confirms sym rnd intent (clicks ++ [.reset] ++ ks.map .key ++ [.ok]) (pinOf ds) ↔
        ks.map σ = ds) := by
    intro ks hks
    rw [confirms_pinOf_iff hamount (hσ layoutLabels), sinceReset_keys, List.take_of_length_le hks]
  have hback : (ds.map σ.symm).map σ = ds := by simp
  refine ⟨ds.map σ.symm, ⟨by simpa using hlen, (htyped _ (by simpa using hlen)).2 hback⟩, ?_⟩
  rintro ks ⟨hks, hconf⟩
  exact σ.injective.list_map (((htyped ks hks).1 hconf).trans hback.symm)

theorem existsUnique_keys_two :
    longValueOf (jstr "000000000100") = .ok 100 ∧ ([4, 3] : List (Fin 10)).length ≤ 4 ∧
      ∃! ks : List (Fin 10), ks.length ≤ 4 ∧
        Confirms symbolsEn (fun _ => 0) ⟨some 3, some (jstr "000000000100")⟩
          ([Click.key 7] ++ [.reset] ++ ks.map .key ++ [.ok]) (pinOf [4, 3]) := by
  have hamount : longValueOf (jstr "000000000100") = .ok 100 := by decide
  exact ⟨hamount, by decide, existsUnique_keys symbolsEn (fun _ => 0)
    ⟨some 3, some (jstr "000000000100")⟩ hamount [Click.key 7] [4, 3] (by decide)⟩

/-! ## The screen -/

/-- What the activity shows: the labels of the keys and the three texts. -/
def screen (p : PinpadActivity) : (Fin 10 → JString) × JString × JString × JString :=
  (p.labels, p.txtPin, p.txtAmount, p.txtPtc)

/-- No click changes the amount or the remaining attempts on the screen. -/
theorem click_texts {p p' : PinpadActivity} {c : Click} (h : click p c = some p') :
    p'.txtAmount = p.txtAmount ∧ p'.txtPtc = p.txtPtc := by
  cases c with
  | key i =>
    simp only [Client.click, keyClick] at h
    split at h
    · obtain ⟨masked, -, h⟩ := Option.bind_eq_some_iff.1 h
      cases h
      exact ⟨rfl, rfl⟩
    · cases h
      exact ⟨rfl, rfl⟩
  | reset =>
    cases h
    exact ⟨rfl, rfl⟩
  | ok =>
    cases h
    exact ⟨rfl, rfl⟩

theorem run_texts {p₀ p : PinpadActivity} {clicks : List Click} (h : run click p₀ clicks = some p) :
    p.txtAmount = p₀.txtAmount ∧ p.txtPtc = p₀.txtPtc := by
  refine run_preserves (I := fun p => p.txtAmount = p₀.txtAmount ∧ p.txtPtc = p₀.txtPtc) ?_
    ⟨rfl, rfl⟩ h
  intro p k q hp hstep
  obtain ⟨hamount, hptc⟩ := click_texts hstep
  exact ⟨hamount.trans hp.1, hptc.trans hp.2⟩

/-- **The screen** after two sequences of clicks is the same exactly when as many digits count. -/
theorem screen_eq_iff (sym : DecimalFormatSymbols) (rnd : Fin 10 → JByte) (intent : Intent)
    {p₀ p q : PinpadActivity} (h : onCreate sym rnd intent = .ok p₀) {as bs : List Click}
    (has : run click p₀ as = some p) (hbs : run click p₀ bs = some q) :
    screen p = screen q ↔ min 4 (sinceReset as).length = min 4 (sinceReset bs).length := by
  obtain ⟨hlabels, hstart⟩ := entry_onCreate h
  have hentry : ∀ {cs : List Click} {r : PinpadActivity}, run click p₀ cs = some r →
      r.labels = p₀.labels ∧ r.txtPin = List.replicate (min 4 (sinceReset cs).length) 0x2A := by
    intro cs r hr
    obtain ⟨r', hr', hentry⟩ := entry_run hlabels hstart cs
    rw [hr] at hr'
    cases hr'
    refine ⟨hentry.labels, ?_⟩
    rw [hentry.txtPin, hentry.pin, length_entered (by rw [hentry.labels]; exact hlabels)]
  obtain ⟨hp, hstars⟩ := hentry has
  obtain ⟨hq, hstars'⟩ := hentry hbs
  obtain ⟨hpa, hpt⟩ := run_texts has
  obtain ⟨hqa, hqt⟩ := run_texts hbs
  simp only [screen, hp, hq, hstars, hstars', hpa, hpt, hqa, hqt, Prod.mk.injEq, true_and,
    and_true]
  exact List.replicate_left_injective _ |>.eq_iff

theorem screen_eq_iff_two : ∃ p₀ p q,
    onCreate symbolsEn (fun _ => 0) ⟨some 3, some (jstr "000000000100")⟩ = .ok p₀ ∧
    run click p₀ [Click.key 4, Click.key 3] = some p ∧
    run click p₀ [Click.key 7, Click.reset, Click.key 1, Click.key 1] = some q ∧
    screen p = screen q := by
  obtain ⟨p₀, h, -⟩ := onCreate_of_longValueOf symbolsEn (fun _ => 0)
    ⟨some 3, some (jstr "000000000100")⟩ (by decide : longValueOf (jstr "000000000100") = .ok 100)
  obtain ⟨hlabels, hstart⟩ := entry_onCreate h
  obtain ⟨p, hp, -⟩ := entry_run hlabels hstart [Click.key 4, Click.key 3]
  obtain ⟨q, hq, -⟩ := entry_run hlabels hstart [Click.key 7, Click.reset, Click.key 1, Click.key 1]
  exact ⟨p₀, p, q, h, hp, hq, (screen_eq_iff symbolsEn (fun _ => 0) _ h hp hq).2 rfl⟩

end Fclient.Verify
