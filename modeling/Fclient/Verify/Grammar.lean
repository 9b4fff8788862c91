import Fclient.Verify.Record

/-!
# The records and the amounts they stand for

The records of the grammar are the encodings of the amounts below `10 ^ 12`, each of one amount. The
pinpad opens for these records and for no others (`opens_iff_existsUnique`), and what it shows tells
them apart (`txtAmount_eq_iff`).
-/

namespace Fclient.Verify

open Base Native Client

/-! ## Every record of the grammar encodes an amount -/

theorem eq_nibbles (b : UInt8) :
    b = UInt8.ofNat (((b &&& 0xF0) >>> 4).toNat * 16 + (b &&& 0x0F).toNat) := by
  have hall : ∀ n < 256, UInt8.ofNat n = UInt8.ofNat
      (((UInt8.ofNat n &&& 0xF0) >>> 4).toNat * 16 + (UInt8.ofNat n &&& 0x0F).toNat) := by
    decide +kernel
  have h := hall b.toNat b.toNat_lt
  rwa [UInt8.ofNat_toNat] at h

theorem exists_digits {b : UInt8} (h : IsDecimal b) :
    ∃ low high, low < 10 ∧ high < 10 ∧ b = UInt8.ofNat (high * 16 + low) :=
  ⟨(b &&& 0x0F).toNat, ((b &&& 0xF0) >>> 4).toNat, h.2, h.1, eq_nibbles b⟩

theorem exists_bcd {bs : List UInt8} (h : ∀ b ∈ bs, IsDecimal b) :
    ∃ ds, ds.length = 2 * bs.length ∧ (∀ d ∈ ds, d < 10) ∧ bcd ds = bs := by
  induction bs using List.reverseRecOn with
  | nil => exact ⟨[], rfl, fun d hd => absurd hd List.not_mem_nil, rfl⟩
  | append_singleton bs b ih =>
    obtain ⟨hbs, hb⟩ := List.forall_mem_append.1 h
    obtain ⟨ds, hlen, hds, hbcd⟩ := ih hbs
    obtain ⟨low, high, hlow, hhigh, rfl⟩ := exists_digits (hb b List.mem_cons_self)
    refine ⟨low :: high :: ds, ?_, ?_, ?_⟩
    · rw [List.length_cons, List.length_cons, hlen, List.length_append, List.length_singleton]
      omega
    · simpa only [List.forall_mem_cons] using ⟨hlow, hhigh, hds⟩
    · rw [bcd, hbcd]

theorem exists_amountRecord {trd : JByteArray} (h : IsRecord trd) :
    ∃ n, ∃ hn : n < 10 ^ 12, trd = amountRecord n hn := by
  obtain ⟨⟨hlen, hhead⟩, hdecimal⟩ := h
  obtain ⟨ds, hds, hlt, hbcd⟩ := exists_bcd hdecimal
  rw [List.length_drop, JByteArray.length_elements, hlen] at hds
  obtain ⟨n, hn, rfl⟩ := (Nat.bijOn_digitsAppend (b := 10) (by decide) 12).surjOn ⟨hds, hlt⟩
  refine ⟨n, hn, JByteArray.elements_injective ?_⟩
  rw [elements_amountRecord, hbcd, ← hhead, List.take_append_drop]

theorem amountRecord_inj {n m : Nat} {hn : n < 10 ^ 12} {hm : m < 10 ^ 12}
    (h : amountRecord n hn = amountRecord m hm) : n = m := by
  have hlong := longValueOf_amount (fun _ => 0) n hn
  rw [h, longValueOf_amount] at hlong
  exact (Int.ofNat.inj (Except.ok.inj hlong)).symm

theorem isRecord_amountRecord (n : Nat) (hn : n < 10 ^ 12) : IsRecord (amountRecord n hn) := by
  have hacc := accepted_amountRecord n hn
  exact ⟨hacc, (longValueOf_amountString (fun _ => 0) hacc).1 ⟨_, longValueOf_amount _ n hn⟩⟩

theorem isRecord_rouble : IsRecord rouble := by
  have htrd : rouble.elements = [0x9F, 0x02, 0x06] ++ packed 6 100 := by decide
  rw [eq_amountRecord (by decide) htrd]
  exact isRecord_amountRecord 100 _

/-! ## The pinpad opens for these records, and tells them apart -/

section Screen

variable {sym : DecimalFormatSymbols} {rnd : Fin 10 → JByte} {trd : JByteArray} {env : WorkerEnv}
  {ptc : JInt} {amount : JString} {p : PinpadActivity}

/-- What a pinpad shows that opens for a prompt. -/
theorem txtAmount_of_enterPIN (h : .enterPIN ptc amount ∈ (transaction trd env).2)
    (hp : onCreate sym rnd (enterPINIntent ptc amount) = .ok p) :
    ∃ n, ∃ hn : n < 10 ^ 12, trd = amountRecord n hn ∧ ShowsAmount sym p.txtAmount n 0 := by
  have hacc := accepted_of_enterPIN h
  have hdecimal : ∀ b ∈ trd.elements.drop 3, IsDecimal b := by
    by_contra hbad
    obtain ⟨e, he⟩ := onCreate_of_not_decimal sym rnd h hbad
    cases hp.symm.trans he
  obtain ⟨n, hn, rfl⟩ := exists_amountRecord ⟨hacc, hdecimal⟩
  obtain ⟨p', hp', hshows⟩ := showsAmount_onCreate sym rnd env h
  cases hp.symm.trans hp'
  exact ⟨n, hn, rfl, hshows⟩

theorem txtAmount_of_longValueOf {f : Int} (h : longValueOf amount = .ok f)
    (hp : onCreate sym rnd (enterPINIntent ptc amount) = .ok p) : p.txtAmount = jstr "Сумма: " ++
      (DecimalFormat.applyPattern "#,###,###,##0.00").format sym f := by
  obtain ⟨p', hp', htxt⟩ := onCreate_of_longValueOf sym rnd (enterPINIntent ptc amount) h
  cases hp.symm.trans hp'
  exact htxt

/-- The record is prompted for, and the pinpad of the prompt opens. -/
def Opens (sym : DecimalFormatSymbols) (rnd : Fin 10 → JByte) (trd : JByteArray)
    (env : WorkerEnv) : Prop :=
  ∃ ptc amount p, .enterPIN ptc amount ∈ (transaction trd env).2 ∧
    onCreate sym rnd (enterPINIntent ptc amount) = .ok p

theorem opens_iff_isRecord : Opens sym rnd trd env ↔ IsRecord trd := by
  constructor
  · rintro ⟨ptc, amount, p, h, hp⟩
    obtain ⟨n, hn, rfl, -⟩ := txtAmount_of_enterPIN h hp
    exact isRecord_amountRecord n hn
  · intro h
    obtain ⟨n, hn, rfl⟩ := exists_amountRecord h
    have hmem := enterPIN_three (accepted_amountRecord n hn) env
    obtain ⟨p, hp, -⟩ := showsAmount_onCreate sym rnd env hmem
    exact ⟨3, _, p, hmem, hp⟩

/-- **The format.** The pinpad opens for the records of the grammar, whatever the answers and the
uninitialised memory are, and these are the encodings of amounts, of one amount each. -/
theorem opens_iff_existsUnique (sym : DecimalFormatSymbols) (rnd : Fin 10 → JByte)
    (trd : JByteArray) (env : WorkerEnv) :
    (Opens sym rnd trd env ↔ ∃! n, ∃ hn : n < 10 ^ 12, trd = amountRecord n hn) ∧
      (IsRecord trd ↔ ∃! n, ∃ hn : n < 10 ^ 12, trd = amountRecord n hn) := by
  have hrecord : IsRecord trd ↔ ∃! n, ∃ hn : n < 10 ^ 12, trd = amountRecord n hn := by
    constructor
    · intro h
      obtain ⟨n, hn, rfl⟩ := exists_amountRecord h
      exact ⟨n, ⟨hn, rfl⟩, fun m ⟨_, hm⟩ => (amountRecord_inj hm).symm⟩
    · rintro ⟨n, ⟨hn, rfl⟩, -⟩
      exact isRecord_amountRecord n hn
  exact ⟨opens_iff_isRecord.trans hrecord, hrecord⟩

end Screen

/-- **Amounts on the screen.** Two pinpads of two transactions show the same amount exactly when the
transactions were started with the same record. -/
theorem txtAmount_eq_iff (sym : DecimalFormatSymbols) {trd trd' : JByteArray} {env env' : WorkerEnv}
    {ptc ptc' : JInt} {amount amount' : JString} {rnd rnd' : Fin 10 → JByte}
    {p p' : PinpadActivity} (h : .enterPIN ptc amount ∈ (transaction trd env).2)
    (h' : .enterPIN ptc' amount' ∈ (transaction trd' env').2)
    (hp : onCreate sym rnd (enterPINIntent ptc amount) = .ok p)
    (hp' : onCreate sym rnd' (enterPINIntent ptc' amount') = .ok p') :
    p.txtAmount = p'.txtAmount ↔ trd = trd' := by
  obtain ⟨n, hn, rfl, hshows⟩ := txtAmount_of_enterPIN h hp
  obtain ⟨n', hn', rfl, hshows'⟩ := txtAmount_of_enterPIN h' hp'
  constructor
  · intro he
    rw [he] at hshows
    obtain ⟨rfl, -⟩ := hshows.unique hshows'
    rfl
  · intro he
    obtain rfl := amountRecord_inj he
    have hlong := longValueOf_amount env.stack n hn
    have hlong' := longValueOf_amount env'.stack n hn
    rw [← amount_of_enterPIN h] at hlong
    rw [← amount_of_enterPIN h'] at hlong'
    rw [txtAmount_of_longValueOf hlong hp, txtAmount_of_longValueOf hlong' hp']

/-- One rouble and a hundred. -/
theorem txtAmount_eq_iff_two : ∃ p p',
    onCreate symbolsEn (fun _ => 0) (enterPINIntent 3
      (amountString noPin.stack (amountRecord 100 (by decide)).elements)) = .ok p ∧
    onCreate symbolsEn (fun _ => 1) (enterPINIntent 3
      (amountString noPin.stack (amountRecord 10000 (by decide)).elements)) = .ok p' ∧
    p.txtAmount ≠ p'.txtAmount := by
  have hmem : ∀ n (hn : n < 10 ^ 12), .enterPIN 3 (amountString noPin.stack
      (amountRecord n hn).elements) ∈ (transaction (amountRecord n hn) noPin).2 :=
    fun n hn => enterPIN_three (accepted_amountRecord n hn) noPin
  obtain ⟨p, hp, -⟩ := showsAmount_onCreate symbolsEn (fun _ => 0) noPin (hmem 100 (by decide))
  obtain ⟨p', hp', -⟩ := showsAmount_onCreate symbolsEn (fun _ => 1) noPin
    (hmem 10000 (by decide))
  refine ⟨p, p', hp, hp', fun hsame => ?_⟩
  have htrd := (txtAmount_eq_iff symbolsEn (hmem 100 (by decide)) (hmem 10000 (by decide)) hp
    hp').1 hsame
  cases amountRecord_inj htrd

end Fclient.Verify
