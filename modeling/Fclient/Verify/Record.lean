import Fclient.Verify.Amount

/-!
# The record and the string made of it

The worker checks the header of a record and not its digits. A value byte gives two decimal digits
when both of its nibbles are below ten (`isDigit_nibbles`), and only a string of such digits is
parsed on the pinpad (`longValueOf_isOk`), so the check and the pinpad agree on the records whose
accepted value is decimal (`parsesRecord_iff`). The record of an amount is one, and brings the
amount through (`amount_roundTrip`).
-/

namespace Fclient.Verify

open Native Client

/-! ## Decimal nibbles -/

/-- Both nibbles are decimal digits. -/
def IsDecimal (b : UInt8) : Prop := (b &&& 0xF0) >>> 4 < 10 ∧ b &&& 0x0F < 10

instance (b : UInt8) : Decidable (IsDecimal b) :=
  inferInstanceAs (Decidable ((b &&& 0xF0) >>> 4 < 10 ∧ b &&& 0x0F < 10))

/-- The grammar of a record: tag `9F 02`, length `06`, and six bytes of two decimal digits each. -/
def IsRecord (trd : JByteArray) : Prop := Accepted trd ∧ ∀ b ∈ trd.elements.drop 3, IsDecimal b

theorem isDigit_iff_toNat (c : JChar) : IsDigit c ↔ 0x30 ≤ c.toNat ∧ c.toNat ≤ 0x39 := by
  unfold IsDigit
  rw [UInt16.le_iff_toNat_le, UInt16.le_iff_toNat_le]
  rfl

theorem isDigit_nibble {m : UInt8} (h : m.toNat < 16) :
    IsDigit (m + 0x30).toUInt16 ↔ m < 10 := by
  have h10 : (10 : UInt8).toNat = 10 := rfl
  rw [isDigit_iff_toNat, UInt8.toNat_toUInt16, toNat_nibble h, UInt8.lt_iff_toNat_lt, h10]
  omega

theorem isDigit_nibbles (b : UInt8) :
    (∀ c ∈ nibbles b, IsDigit c.toUInt16) ↔ IsDecimal b := by
  simp only [nibbles, List.forall_mem_cons, List.not_mem_nil, IsEmpty.forall_iff, implies_true,
    and_true]
  rw [isDigit_nibble (highNibble_lt b), isDigit_nibble (lowNibble_lt b)]
  rfl

/-! ## What the pinpad parses -/

theorem digitValue_eq_some {c : JChar} {d : Nat} (h : digitValue c = some d) : IsDigit c := by
  unfold digitValue at h
  split at h
  · assumption
  · cases h

theorem exists_digitValue {c : JChar} (h : IsDigit c) : ∃ d < 10, digitValue c = some d := by
  refine ⟨c.toNat - 0x30, ?_, if_pos h⟩
  rw [isDigit_iff_toNat] at h
  omega

theorem parseDigits_eq_some {s : JString} {n : Nat} (h : parseDigits s = some n) :
    ∀ c ∈ s, IsDigit c := by
  induction s using List.reverseRecOn generalizing n with
  | nil => simp
  | append_singleton s c ih =>
    rw [parseDigits_concat, Option.bind_eq_some_iff] at h
    obtain ⟨m, hm, h⟩ := h
    obtain ⟨d, hd, -⟩ := Option.map_eq_some_iff.1 h
    intro c' hc'
    rcases List.mem_append.1 hc' with hc' | hc'
    · exact ih hm c' hc'
    · rw [List.mem_singleton.1 hc']
      exact digitValue_eq_some hd

theorem exists_parseDigits {s : JString} (h : ∀ c ∈ s, IsDigit c) :
    ∃ n < 10 ^ s.length, parseDigits s = some n := by
  induction s using List.reverseRecOn with
  | nil => exact ⟨0, Nat.one_pos, rfl⟩
  | append_singleton s c ih =>
    obtain ⟨n, hn, hparse⟩ := ih fun c' hc' => h c' (List.mem_append_left [c] hc')
    obtain ⟨d, hd, hvalue⟩ := exists_digitValue (h c (by simp))
    refine ⟨n * 10 + d, ?_, ?_⟩
    · rw [List.length_append, List.length_singleton, Nat.pow_succ]
      omega
    · rw [parseDigits_concat, hparse, hvalue]
      rfl

/-- A string of one to eighteen characters without a sign is parsed exactly when they are digits. -/
theorem longValueOf_isOk {s : JString} (hsign : ∀ c ∈ s, 0x30 ≤ c) (hne : s ≠ [])
    (hlen : s.length ≤ 18) : (∃ f, longValueOf s = .ok f) ↔ ∀ c ∈ s, IsDigit c := by
  constructor
  · rintro ⟨f, hf⟩
    cases hparse : parseDigits s with
    | some n => exact parseDigits_eq_some hparse
    | none =>
      rw [longValueOf_unsigned hsign hne, hparse] at hf
      cases hf
  · intro hdigits
    obtain ⟨n, hn, hparse⟩ := exists_parseDigits hdigits
    have hpow : 10 ^ s.length ≤ 10 ^ 18 := Nat.pow_le_pow_right (by omega) hlen
    exact ⟨n, longValueOf_digits hdigits hne hparse (by omega)⟩

/-! ## The amount of a record -/

section AmountString

variable (stack : Fin 13 → UInt8) {trd : JByteArray} (h : Accepted trd)

include h in
theorem amountString_accepted : amountString stack trd.elements =
    ((trd.elements.drop 3).flatMap nibbles).map UInt8.toUInt16 :=
  amountString_eq stack (by rw [JByteArray.length_elements]; exact h.1)

include h in
theorem length_amountString : (amountString stack trd.elements).length = 12 := by
  have hlen : (trd.elements.drop 3).length = 6 := by
    rw [List.length_drop, JByteArray.length_elements, h.1]
  have hnibbles : ∀ b, (nibbles b).length = 2 := fun _ => rfl
  rw [amountString_accepted stack h, List.length_map, List.length_flatMap]
  simp only [hnibbles, List.map_const', hlen]
  rfl

theorem forall_mem_nibbles (P : JChar → Prop) (bs : List UInt8) :
    (∀ c ∈ (bs.flatMap nibbles).map UInt8.toUInt16, P c) ↔
      ∀ b ∈ bs, ∀ c ∈ nibbles b, P c.toUInt16 := by
  simp only [List.forall_mem_map, List.forall_mem_flatMap]

include h in
/-- The amount consists of digits exactly when the value bytes do. -/
theorem isDigit_amountString : (∀ c ∈ amountString stack trd.elements, IsDigit c) ↔
    ∀ b ∈ trd.elements.drop 3, IsDecimal b := by
  rw [amountString_accepted stack h, forall_mem_nibbles]
  exact forall₂_congr fun b _ => isDigit_nibbles b

theorem zero_le_nibbles (b : UInt8) : ∀ c ∈ nibbles b, (0x30 : JChar) ≤ c.toUInt16 := by
  have hle : ∀ {m : UInt8}, m.toNat < 16 → (0x30 : JChar) ≤ (m + 0x30).toUInt16 := by
    intro m hm
    rw [UInt16.le_iff_toNat_le, UInt8.toNat_toUInt16, toNat_nibble hm]
    exact Nat.le_add_left _ _
  simp only [nibbles, List.forall_mem_cons, List.not_mem_nil, IsEmpty.forall_iff, implies_true,
    and_true]
  exact ⟨hle (highNibble_lt b), hle (lowNibble_lt b)⟩

include h in
/-- The pinpad parses the amount of an accepted record exactly when its value bytes are decimal. -/
theorem longValueOf_amountString : (∃ f, longValueOf (amountString stack trd.elements) = .ok f) ↔
    ∀ b ∈ trd.elements.drop 3, IsDecimal b := by
  have hlen := length_amountString stack h
  rw [← isDigit_amountString stack h]
  refine longValueOf_isOk ?_ (List.ne_nil_of_length_pos (by omega)) (by omega)
  rw [amountString_accepted stack h, forall_mem_nibbles]
  exact fun b _ => zero_le_nibbles b

end AmountString

/-- The worker prompts for the records of the grammar and for no others, and hands every prompt an
amount of twelve digits that `onCreate` parses. -/
structure ParsesRecord (trd : JByteArray) (env : WorkerEnv) : Prop where
  prompts : (∃ k a, .enterPIN k a ∈ (transaction trd env).2) ↔ IsRecord trd
  parses : ∀ k a, .enterPIN k a ∈ (transaction trd env).2 →
    a.length = 12 ∧ (∀ c ∈ a, IsDigit c) ∧
      ∀ sym rnd, ∃ p, onCreate sym rnd (enterPINIntent k a) = .ok p

/-- **The record parser** accepts its grammar unless an accepted header is followed by a nibble that
is not decimal. -/
theorem parsesRecord_iff (trd : JByteArray) (env : WorkerEnv) :
    ParsesRecord trd env ↔ (Accepted trd → ∀ b ∈ trd.elements.drop 3, IsDecimal b) := by
  constructor
  · intro h hacc
    have hrecord := h.prompts.1 ⟨_, _, enterPIN_three hacc env⟩
    exact hrecord.2
  · intro h
    refine ⟨⟨?_, ?_⟩, fun k a hmem => ?_⟩
    · rintro ⟨k, a, hmem⟩
      have hacc := accepted_of_enterPIN hmem
      exact ⟨hacc, h hacc⟩
    · rintro ⟨hacc, -⟩
      exact ⟨_, _, enterPIN_three hacc env⟩
    · have hacc := accepted_of_enterPIN hmem
      have hlen := length_amountString env.stack hacc
      have hdigits := (isDigit_amountString env.stack hacc).2 (h hacc)
      obtain ⟨f, hf⟩ := (longValueOf_amountString env.stack hacc).2 (h hacc)
      rw [← amount_of_enterPIN hmem] at hlen hdigits hf
      refine ⟨hlen, hdigits, fun sym rnd => ?_⟩
      obtain ⟨p, hp, -⟩ := onCreate_of_longValueOf sym rnd (enterPINIntent k a) hf
      exact ⟨p, hp⟩

/-- Any other accepted record ends in an exception of the pinpad it prompts on. -/
theorem onCreate_of_not_decimal (sym : DecimalFormatSymbols) (rnd : Fin 10 → JByte)
    {trd : JByteArray} {env : WorkerEnv} {k : JInt} {a : JString}
    (h : .enterPIN k a ∈ (transaction trd env).2)
    (hbad : ¬ ∀ b ∈ trd.elements.drop 3, IsDecimal b) :
    ∃ e, onCreate sym rnd (enterPINIntent k a) = .error e := by
  rw [← longValueOf_amountString env.stack (accepted_of_enterPIN h), ← amount_of_enterPIN h] at hbad
  cases hlong : longValueOf a with
  | ok f => exact absurd ⟨f, hlong⟩ hbad
  | error e =>
    refine ⟨e, ?_⟩
    simp [onCreate, enterPINIntent, hlong, bind, Except.bind]

/-- The record of one rouble with `0A` as its last byte prompts. -/
theorem not_parsesRecord_hex : ¬ ParsesRecord
    ⟨[-97, 0x02, 0x06, 0x00, 0x00, 0x00, 0x00, 0x01, 0x0A], by decide⟩ noPin := by
  intro h
  have hrecord := h.prompts.1 ⟨_, _, enterPIN_three (by decide) noPin⟩
  exact absurd (hrecord.2 0x0A (by decide)) (by decide)

/-! ## The record of an amount -/

/-- The decimal digit of `n` for `10 ^ k`. -/
def digit (n k : Nat) : Nat := n / 10 ^ k % 10

/-- `n` with `l` decimal digits, most significant first. -/
def zeroPadded (l n : Nat) : JString :=
  ((List.range l).map fun k => digitChar (digit n k)).reverse

/-- The packed decimal encoding of `n` in `l` bytes, most significant first. -/
def packed (l n : Nat) : List UInt8 :=
  ((List.range l).map fun k =>
    UInt8.ofNat (digit n (2 * k + 1) * 16 + digit n (2 * k))).reverse

theorem digitsAppend_eq {l n : Nat} (hn : n < 10 ^ l) :
    Nat.digitsAppend 10 l n = (List.range l).map (digit n) := by
  have hlen := Nat.length_digitsAppend (by decide) l hn
  unfold Nat.digitsAppend at hlen ⊢
  refine List.ext_getElem (by simpa using hlen) fun k hk _ => ?_
  rw [List.getElem_map, List.getElem_range, digit, ← Nat.getD_digits n k (by decide),
    List.getElem_append]
  split
  · rename_i hlt
    rw [List.getD_eq_getElem?_getD, List.getElem?_eq_getElem hlt, Option.getD_some]
  · rename_i hge
    rw [List.getElem_replicate, List.getD_eq_getElem?_getD,
      List.getElem?_eq_none (Nat.le_of_not_lt hge), Option.getD_none]

theorem bcd_range (l : Nat) (f : Nat → Nat) : bcd ((List.range (2 * l)).map f) =
    ((List.range l).map fun k => UInt8.ofNat (f (2 * k + 1) * 16 + f (2 * k))).reverse := by
  induction l generalizing f with
  | zero => rfl
  | succ l ih =>
    have hrest := ih fun k => f (k + 2)
    have hdigits : (List.range (2 * (l + 1))).map f =
        f 0 :: f 1 :: (List.range (2 * l)).map fun k => f (k + 2) := by
      rw [Nat.mul_succ, List.range_succ_eq_map, List.range_succ_eq_map, List.map_cons,
        List.map_cons, List.map_cons, List.map_map, List.map_map]
      rfl
    rw [hdigits, bcd, hrest, List.range_succ_eq_map, List.map_cons, List.reverse_cons, List.map_map]
    rfl

theorem bcd_digitsAppend {l n : Nat} (hn : n < 10 ^ (2 * l)) :
    bcd (Nat.digitsAppend 10 (2 * l) n) = packed l n := by
  rw [digitsAppend_eq hn, bcd_range]
  rfl

theorem eq_amountRecord {trd : JByteArray} {n : Nat} (hn : n < 10 ^ 12)
    (htrd : trd.elements = [0x9F, 0x02, 0x06] ++ packed 6 n) : trd = amountRecord n hn := by
  refine JByteArray.elements_injective ?_
  rw [htrd, elements_amountRecord, ← bcd_digitsAppend hn]

/-- **From record to pinpad.** The record of `n` is accepted, and every prompt for it, of which
there is at least one, is handed the twelve digits of `n`, which parse to `n`; `n` is what the
pinpad formats. -/
theorem amount_roundTrip {trd : JByteArray} {n : Nat} (hn : n < 10 ^ 12)
    (htrd : trd.elements = [0x9F, 0x02, 0x06] ++ packed 6 n) (env : WorkerEnv) :
    malformed trd.elements = false ∧ (∃ k a, .enterPIN k a ∈ (transaction trd env).2) ∧
      ∀ k a, .enterPIN k a ∈ (transaction trd env).2 →
        a = zeroPadded 12 n ∧ longValueOf a = .ok n ∧
        ∀ sym rnd, ∃ p, onCreate sym rnd (enterPINIntent k a) = .ok p ∧
          p.txtAmount = jstr "Сумма: " ++
            (DecimalFormat.applyPattern "#,###,###,##0.00").format sym n := by
  obtain rfl := eq_amountRecord hn htrd
  have hacc := accepted_amountRecord n hn
  refine ⟨(malformed_eq_false _).2 hacc, ⟨_, _, enterPIN_three hacc env⟩, fun k a hmem => ?_⟩
  have hamount := amount_of_enterPIN hmem
  have hlong : longValueOf a = .ok n := hamount ▸ longValueOf_amount env.stack n hn
  refine ⟨?_, hlong, fun sym rnd => onCreate_of_longValueOf sym rnd (enterPINIntent k a) hlong⟩
  rw [hamount, amountString_amountRecord, digitsAppend_eq hn, zeroPadded, List.map_reverse,
    List.map_map]
  rfl

theorem amount_roundTrip_rouble :
    amountString noPin.stack rouble.elements = jstr "000000000100" ∧
      longValueOf (amountString noPin.stack rouble.elements) = .ok 100 ∧
      ∃ p, onCreate symbolsEn (fun _ => 0)
          (enterPINIntent 3 (amountString noPin.stack rouble.elements)) = .ok p ∧
        p.txtAmount = jstr "Сумма: 100.00" := by
  have hn : 100 < 10 ^ 12 := by decide
  have htrd : rouble.elements = [0x9F, 0x02, 0x06] ++ packed 6 100 := by decide
  have hacc : Accepted rouble := by decide
  obtain ⟨-, -, hprompts⟩ := amount_roundTrip hn htrd noPin
  obtain ⟨hdigits, hlong, hcreate⟩ := hprompts 3 _ (enterPIN_three hacc noPin)
  obtain ⟨p, hp, htxt⟩ := hcreate symbolsEn fun _ => 0
  have hformat : (DecimalFormat.applyPattern "#,###,###,##0.00").format symbolsEn (100 : Nat) =
      jstr "100.00" := by decide +kernel
  exact ⟨hdigits, hlong, p, hp, htxt.trans (by rw [hformat]; rfl)⟩

end Fclient.Verify
