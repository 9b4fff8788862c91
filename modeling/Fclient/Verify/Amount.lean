import Fclient.Client.Pinpad
import Fclient.Verify.Pinpad
import Fclient.Verify.Transaction
import Mathlib.Data.Nat.Digits.Lemmas

/-!
# The amount on the pinpad

The native worker spells the six value bytes of the record out as twelve characters
(`amountString_eq`), `enterPIN` passes them through the intent, and `onCreate` parses them and
renders the number by its pattern. For the record of `n` minor units the number that arrives is `n`
itself (`longValueOf_amount`), so the pinpad shows `n` whole units (`showsAmount_onCreate`) and is
right for `n = 0` only (`amountShown_iff`).
-/

namespace Fclient.Verify

open Native Client

/-! ## Decimal digits -/

theorem digitValue_digitChar : ∀ d < 10, digitValue (digitChar d) = some d := by decide

theorem isDigit_digitChar : ∀ d < 10, 0x30 ≤ digitChar d ∧ digitChar d ≤ 0x39 := by decide

theorem parseDigits_concat (s : JString) (c : JChar) :
    parseDigits (s ++ [c]) =
      (parseDigits s).bind fun n => (digitValue c).map (n * 10 + ·) := by
  unfold parseDigits
  rw [List.foldlM_append]
  simp

/-- `ds` has its least significant digit first. -/
theorem parseDigits_reverse {ds : List Nat} (h : ∀ d ∈ ds, d < 10) :
    parseDigits (ds.reverse.map digitChar) = some (Nat.ofDigits 10 ds) := by
  induction ds with
  | nil => rfl
  | cons d ds ih =>
    have hd := digitValue_digitChar d (h d List.mem_cons_self)
    have ih' := ih fun e he => h e (List.mem_cons_of_mem _ he)
    rw [List.reverse_cons, List.map_append, List.map_singleton, parseDigits_concat, ih', hd,
      Option.bind_some, Option.map_some, Nat.ofDigits_cons, Nat.mul_comm, Nat.add_comm]

theorem ofDigits_digitsAppend (l n : Nat) : Nat.ofDigits 10 (Nat.digitsAppend 10 l n) = n := by
  rw [Nat.digitsAppend, Nat.ofDigits_append_replicate_zero, Nat.ofDigits_digits]

theorem digit_lt {l n d : Nat} (h : d ∈ Nat.digitsAppend 10 l n) : d < 10 :=
  Nat.lt_of_mem_digitsAppend (by decide) l d h

theorem parseDigits_digitsAppend (l n : Nat) :
    parseDigits ((Nat.digitsAppend 10 l n).reverse.map digitChar) = some n := by
  rw [parseDigits_reverse fun _ => digit_lt, ofDigits_digitsAppend]

/-! ## The record of an amount -/

/-- Two digits a byte; `ds` has its least significant digit first, the bytes their most significant
pair. -/
def bcd : List Nat → List UInt8
  | low :: high :: ds => bcd ds ++ [UInt8.ofNat (high * 16 + low)]
  | _ => []

theorem length_bcd : ∀ ds, (bcd ds).length = ds.length / 2
  | [] => rfl
  | [_] => by simp [bcd]
  | _ :: _ :: ds => by
    rw [bcd, List.length_append, length_bcd ds, List.length_cons, List.length_cons]
    exact (Nat.add_div_right _ (Nat.succ_pos 1)).symm

theorem length_digits {n : Nat} (hn : n < 10 ^ 12) : (Nat.digitsAppend 10 12 n).length = 12 :=
  Nat.length_digitsAppend (by decide) 12 hn

/-- The record of `n` minor units: tag `9F 02`, length `06`, twelve digits. -/
def amountRecord (n : Nat) (hn : n < 10 ^ 12) : JByteArray where
  bytes := ([0x9F, 0x02, 0x06] ++ bcd (Nat.digitsAppend 10 12 n)).map UInt8.toInt8
  size_lt := by
    rw [List.length_map, List.length_append, length_bcd, length_digits hn]
    decide

theorem elements_amountRecord (n : Nat) (hn : n < 10 ^ 12) :
    (amountRecord n hn).elements = [0x9F, 0x02, 0x06] ++ bcd (Nat.digitsAppend 10 12 n) := by
  have hid : Int8.toUInt8 ∘ UInt8.toInt8 = id := funext UInt8.toUInt8_toInt8
  rw [JByteArray.elements, amountRecord, List.map_map, hid, List.map_id]

theorem accepted_amountRecord (n : Nat) (hn : n < 10 ^ 12) : Accepted (amountRecord n hn) := by
  refine ⟨?_, by rw [elements_amountRecord]; rfl⟩
  rw [← JByteArray.length_elements, elements_amountRecord, List.length_append, length_bcd,
    length_digits hn]
  rfl

/-! ## From the record to the intent -/

/-- The two characters the worker makes of a value byte. -/
def nibbles (b : UInt8) : List UInt8 := [((b &&& 0xF0) >>> 4) + 0x30, (b &&& 0x0F) + 0x30]

theorem highNibble_lt (b : UInt8) : ((b &&& 0xF0) >>> 4).toNat < 16 := by
  have hlt := (b &&& 0xF0).toNat_lt
  have h4 : (4 : UInt8).toNat % 8 = 4 := rfl
  rw [UInt8.toNat_shiftRight, h4, Nat.shiftRight_eq_div_pow]
  omega

theorem lowNibble_lt (b : UInt8) : (b &&& 0x0F).toNat < 16 := by
  rw [UInt8.toNat_and]
  exact Nat.lt_of_le_of_lt Nat.and_le_right (by decide)

theorem toNat_nibble {m : UInt8} (h : m.toNat < 16) : (m + 0x30).toNat = m.toNat + 0x30 := by
  have h30 : (0x30 : UInt8).toNat = 0x30 := rfl
  rw [UInt8.toNat_add, h30, Nat.mod_eq_of_lt (by omega)]

theorem nibble_ascii {m : UInt8} (h : m.toNat < 16) : m + 0x30 ≠ 0 ∧ m + 0x30 < 0x80 := by
  have hsum := toNat_nibble h
  constructor
  · intro h0
    rw [h0] at hsum
    exact absurd hsum (by simp)
  · rw [UInt8.lt_iff_toNat_lt, hsum]
    exact Nat.lt_of_lt_of_le (Nat.add_lt_add_right h 0x30) (by decide)

theorem nibbles_ascii (b : UInt8) : ∀ c ∈ nibbles b, c ≠ 0 ∧ c < 0x80 := by
  intro c hc
  simp only [nibbles, List.mem_cons, List.not_mem_nil, or_false] at hc
  rcases hc with rfl | rfl
  · exact nibble_ascii (highNibble_lt b)
  · exact nibble_ascii (lowNibble_lt b)

theorem amountBuffer_eq (stack : Fin 13 → UInt8) {p : List UInt8} (h : p.length = 9) :
    amountBuffer stack p = (p.drop 3).flatMap nibbles ++ [0] := by
  match p, h with
  | [_, _, _, _, _, _, _, _, _], _ => simp [amountBuffer, List.range_succ, nibbles]

/-- The string the worker passes to `enterPIN`; nothing of the fresh stack array is left in it. -/
theorem amountString_eq (stack : Fin 13 → UInt8) {p : List UInt8} (h : p.length = 9) :
    amountString stack p = ((p.drop 3).flatMap nibbles).map UInt8.toUInt16 := by
  rw [amountString, amountBuffer_eq stack h]
  refine newStringUTF_ascii fun c hc => ?_
  obtain ⟨b, -, hc⟩ := List.mem_flatMap.1 hc
  exact nibbles_ascii b c hc

theorem nibbles_pair : ∀ low < 10, ∀ high < 10,
    (nibbles (UInt8.ofNat (high * 16 + low))).map UInt8.toUInt16 =
      [digitChar high, digitChar low] := by
  decide

theorem flatMap_bcd : ∀ {ds : List Nat}, 2 ∣ ds.length → (∀ d ∈ ds, d < 10) →
    ((bcd ds).flatMap nibbles).map UInt8.toUInt16 = ds.reverse.map digitChar
  | [], _, _ => rfl
  | [_], h, _ => absurd h (by simp)
  | low :: high :: ds, heven, h => by
    have ih := @flatMap_bcd ds ((Nat.dvd_add_left (Nat.dvd_refl 2)).1 heven) fun d hd =>
      h d (by simp [hd])
    have hpair := nibbles_pair low (h low (by simp)) high (h high (by simp))
    rw [bcd, List.flatMap_append, List.map_append, ih, List.flatMap_singleton, hpair]
    simp

theorem amountString_amountRecord (stack : Fin 13 → UInt8) (n : Nat) (hn : n < 10 ^ 12) :
    amountString stack (amountRecord n hn).elements =
      (Nat.digitsAppend 10 12 n).reverse.map digitChar := by
  have hacc := (accepted_amountRecord n hn).1
  rw [amountString_eq stack (by rw [JByteArray.length_elements]; exact hacc), elements_amountRecord]
  refine flatMap_bcd ?_ fun _ => digit_lt
  rw [length_digits hn]
  decide

/-- Without a sign, the digits decide. -/
theorem longValueOf_unsigned {s : JString} (hsign : ∀ c ∈ s, 0x30 ≤ c) (hne : s ≠ []) :
    longValueOf s = match parseDigits s with
      | some n => if n < 2 ^ 63 then .ok n else .error ⟨s⟩
      | none => .error ⟨s⟩ := by
  obtain ⟨c, s, rfl⟩ := List.exists_cons_of_ne_nil hne
  have hc := hsign c List.mem_cons_self
  have hminus : c ≠ 0x2D := by rintro rfl; exact absurd hc (by decide)
  have hplus : c ≠ 0x2B := by rintro rfl; exact absurd hc (by decide)
  simp only [longValueOf, List.head?_cons, Option.some_beq_some, beq_iff_eq, hminus, hplus,
    or_self, if_false]
  cases parseDigits (c :: s) with
  | none => rfl
  | some n => exact if_congr (by omega) rfl rfl

theorem longValueOf_digits {s : JString} {n : Nat} (hs : ∀ c ∈ s, IsDigit c) (hne : s ≠ [])
    (hparse : parseDigits s = some n) (hn : n < 2 ^ 63) : longValueOf s = .ok n := by
  rw [longValueOf_unsigned (fun c hc => (hs c hc).1) hne, hparse]
  exact if_pos hn

/-- What `onCreate` parses is the amount of the record. -/
theorem longValueOf_amount (stack : Fin 13 → UInt8) (n : Nat) (hn : n < 10 ^ 12) :
    longValueOf (amountString stack (amountRecord n hn).elements) = .ok n := by
  rw [amountString_amountRecord]
  refine longValueOf_digits ?_ ?_ (parseDigits_digitsAppend 12 n) (by omega)
  · intro c hc
    obtain ⟨d, hd, rfl⟩ := List.mem_map.1 hc
    exact isDigit_digitChar d (digit_lt (List.mem_reverse.1 hd))
  · intro h
    have hlen := length_digits hn
    simp_all

/-! ## From the intent to the screen -/

theorem filter_groupDigits (size : Nat) {sep : JChar} (left : Nat) {ds : List JChar}
    (h : ∀ c ∈ ds, c ≠ sep) : (groupDigits size sep left ds).filter (· ≠ sep) = ds := by
  induction ds generalizing left with
  | nil => simp [groupDigits]
  | cons d ds ih =>
    have hd := h d List.mem_cons_self
    have hds := ih (h := fun c hc => h c (List.mem_cons_of_mem d hc))
    cases left with
    | zero =>
      rw [groupDigits, List.filter_cons_of_neg (by simp), List.filter_cons_of_pos (by simpa), hds]
    | succ left => rw [groupDigits, List.filter_cons_of_pos (by simpa), hds]

theorem filter_formatInteger (df : DecimalFormat) (sym : DecimalFormatSymbols) (n : Nat) :
    (df.formatInteger sym n).filter (· ≠ sym.groupingSeparator) =
      (Nat.digitsAppend 10 df.minimumIntegerDigits n).reverse.map digitChar := by
  have hpad : (Nat.digits 10 n).map digitChar ++
      List.replicate (df.minimumIntegerDigits - ((Nat.digits 10 n).map digitChar).length) 0x30 =
        (Nat.digitsAppend 10 df.minimumIntegerDigits n).map digitChar := by
    rw [Nat.digitsAppend, List.map_append, List.map_replicate, List.length_map]
    rfl
  have hsep : ∀ c ∈ (Nat.digitsAppend 10 df.minimumIntegerDigits n).map digitChar,
      c ≠ sym.groupingSeparator := by
    rintro c hc rfl
    obtain ⟨d, hd, hc⟩ := List.mem_map.1 hc
    exact sym.grouping_not_digit (hc ▸ isDigit_digitChar d (digit_lt hd))
  simp only [DecimalFormat.formatInteger, hpad]
  rw [List.filter_reverse, List.map_reverse]
  congr 1
  split
  · exact List.filter_eq_self.2 fun c hc => by simpa using hsep c hc
  · exact filter_groupDigits _ _ hsep

/-- After the label, `txt` has an integer part that reads `units` without its separators, and two
fraction digits that read `minor`. -/
def ShowsAmount (sym : DecimalFormatSymbols) (txt : JString) (units minor : Nat) : Prop :=
  ∃ integer fraction, txt = jstr "Сумма: " ++ (integer ++ sym.decimalSeparator :: fraction) ∧
    fraction.length = 2 ∧
    parseDigits (integer.filter (· ≠ sym.groupingSeparator)) = some units ∧
    parseDigits fraction = some minor

theorem ShowsAmount.unique {sym : DecimalFormatSymbols} {txt : JString}
    {units minor units' minor' : Nat} (h : ShowsAmount sym txt units minor)
    (h' : ShowsAmount sym txt units' minor') :
    units = units' ∧ minor = minor' := by
  obtain ⟨integer, fraction, rfl, hlen, hi, hf⟩ := h
  obtain ⟨integer', fraction', htxt, hlen', hi', hf'⟩ := h'
  obtain ⟨rfl, hcons⟩ := List.append_inj' (List.append_cancel_left htxt)
    (by rw [List.length_cons, List.length_cons, hlen, hlen'])
  obtain ⟨-, rfl⟩ := List.cons.inj hcons
  exact ⟨Option.some.inj (hi.symm.trans hi'), Option.some.inj (hf.symm.trans hf')⟩

theorem showsAmount_format (sym : DecimalFormatSymbols) (n : Nat) :
    ShowsAmount sym (jstr "Сумма: " ++
      (DecimalFormat.applyPattern "#,###,###,##0.00").format sym n) n 0 := by
  have hpattern : DecimalFormat.applyPattern "#,###,###,##0.00" = ⟨3, 1, 2⟩ := by decide
  refine ⟨(⟨3, 1, 2⟩ : DecimalFormat).formatInteger sym n, [0x30, 0x30], ?_, rfl, ?_, by decide⟩
  · rw [hpattern, DecimalFormat.format, if_neg (by omega)]
    rfl
  · rw [filter_formatInteger, parseDigits_digitsAppend]

/-! ## From the record to the screen -/

/-- Every prompt for the record of `n` minor units shows `n / 100` with two decimals. -/
def AmountShown (sym : DecimalFormatSymbols) (rnd : Fin 10 → JByte) (env : WorkerEnv) (n : Nat)
    (hn : n < 10 ^ 12) : Prop :=
  ∀ ptc amount, .enterPIN ptc amount ∈ (transaction (amountRecord n hn) env).2 →
    ∃ p, onCreate sym rnd (enterPINIntent ptc amount) = .ok p ∧
      ShowsAmount sym p.txtAmount (n / 100) (n % 100)

theorem showsAmount_onCreate (sym : DecimalFormatSymbols) (rnd : Fin 10 → JByte) (env : WorkerEnv)
    {n : Nat} {hn : n < 10 ^ 12} {ptc : JInt} {amount : JString}
    (h : .enterPIN ptc amount ∈ (transaction (amountRecord n hn) env).2) :
    ∃ p, onCreate sym rnd (enterPINIntent ptc amount) = .ok p ∧
      ShowsAmount sym p.txtAmount n 0 := by
  have hamount := amount_of_enterPIN h
  have hlong : longValueOf amount = .ok n := hamount ▸ longValueOf_amount env.stack n hn
  obtain ⟨p, hp, htxt⟩ := onCreate_of_longValueOf sym rnd (enterPINIntent ptc amount) hlong
  exact ⟨p, hp, htxt ▸ showsAmount_format sym n⟩

/-- **The amount shown** is the amount of the record for no amount but zero. -/
theorem amountShown_iff (sym : DecimalFormatSymbols) (rnd : Fin 10 → JByte) (env : WorkerEnv)
    (n : Nat) (hn : n < 10 ^ 12) : AmountShown sym rnd env n hn ↔ n = 0 := by
  constructor
  · intro h
    have hmem := enterPIN_three (accepted_amountRecord n hn) env
    obtain ⟨p, hp, hshows⟩ := h _ _ hmem
    obtain ⟨p', hp', hshows'⟩ := showsAmount_onCreate sym rnd env hmem
    rw [hp] at hp'
    cases hp'
    have hunits := (hshows.unique hshows').1
    omega
  · rintro rfl ptc amount h
    exact showsAmount_onCreate sym rnd env h

def noPin : WorkerEnv := ⟨fun _ => 0, fun _ => ⟨[], []⟩⟩

theorem amountShown_zero : AmountShown symbolsEn (fun _ => 0) noPin 0 (by decide) :=
  (amountShown_iff symbolsEn (fun _ => 0) noPin 0 (by decide)).2 rfl

/-- The record `9F 02 06 00 00 00 00 01 00` of one rouble shows as `100.00`. -/
theorem not_amountShown_rouble :
    (amountRecord 100 (by decide)).elements = [0x9F, 0x02, 0x06, 0, 0, 0, 0, 1, 0] ∧
      ¬ AmountShown symbolsEn (fun _ => 0) noPin 100 (by decide) := by
  refine ⟨by decide, fun h => ?_⟩
  have hmem := enterPIN_three (accepted_amountRecord 100 (by decide)) noPin
  obtain ⟨p, hp, hshows⟩ := h _ _ hmem
  obtain ⟨p', hp', hshows'⟩ := showsAmount_onCreate symbolsEn (fun _ => 0) noPin hmem
  rw [hp] at hp'
  cases hp'
  exact absurd (hshows.unique hshows').1 (by decide)

end Fclient.Verify
