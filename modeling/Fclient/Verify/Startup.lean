import Fclient.Client.Startup
import Fclient.Verify.Bias
import Fclient.Verify.Bounds
import Fclient.Verify.Ecb
import Fclient.Verify.Rng
import Mathlib.Algebra.BigOperators.Fin
import Mathlib.SetTheory.Cardinal.Finite

/-!
# What the example at startup shows

Every run of the example writes past the end of the buffer of `encrypt`. In flat memory, where that
does no harm, what it prints as decrypted is the data only when one cell behind them happened to
hold a 4 (`onCreateExample_iff`). The first line gives away the key, up to the bytes that are no
ASCII code (`card_keys_of_line`).
-/

namespace Fclient.Verify

open Base Native Client

/-! ## There and back -/

section Example

variable {Ctx σ ε : Type} {des : Des3 Ctx} (drbg : CtrDrbg σ ε) (e e' : ε) (heaps : Heaps)
  (nextInt : Fin 20 → JInt)

theorem length_onCreateKeys (heap : Memory UInt8) :
    ∃ keys, onCreateKeys drbg e e' heap = .ok keys ∧ keys.bytes.length = 16 :=
  length_randomBytes drbg (by decide : 0 ≤ (16 : JInt).toInt) (initRng drbg e).2 e' heap

theorem length_onCreateData : (onCreateData nextInt).bytes.length = 20 := List.length_ofFn

/-- The padding of the data leaves the buffer. -/
theorem encryptChecked_onCreateData {keys : JByteArray} (hkey : keys.bytes.length = 16)
    (heap : Memory UInt8) :
    encryptChecked des heap keys (onCreateData nextInt) = .error ⟨27, 1⟩ := by
  have hdata := length_onCreateData nextInt
  rw [encryptChecked_error des heap hkey (by omega) (by omega) (by omega) (by omega), hdata]
  rfl

theorem lengthByte_twenty (heap : Memory UInt8) : lengthByte heap 20 = heap 23 := rfl

/-- Of a buffer that starts with the data, as many bytes are the data as it has. -/
theorem usAscii_eq_iff {heap : Memory UInt8} {data p : JByteArray} {rest : List UInt8} {n : Nat}
    (hp : p.elements = (heap.storeList (data.elements ++ rest)).read n) :
    usAscii p.bytes = usAscii data.bytes ↔ n = data.bytes.length := by
  have hlen := congrArg List.length hp
  rw [p.length_elements, Memory.length_read] at hlen
  constructor
  · intro hsame
    have hlength := congrArg List.length hsame
    rwa [usAscii, usAscii, List.length_map, List.length_map, hlen] at hlength
  · intro hn
    have htake : p.elements = data.elements := by
      rw [hp, hn, ← data.length_elements,
        Memory.read_storeList _ (by rw [List.length_append]; omega), List.take_left]
    rw [JByteArray.elements_injective htake]

/-- **The example** in flat memory, whatever the key, the data and the heap: `encrypt` leaves its
buffer (its first store is at offset 27 of 24 bytes). If that and the reads of `decrypt` behind its
own buffer do no harm, the four lines are printed, of which the last shows the data of the second
exactly when the heap held a 4 at the last cell of the buffer of `encrypt`. -/
theorem onCreateExample_iff (hinv : des.Inverse) :
    ∃ x key data cipher plain, onCreateExample des drbg e e' heaps nextInt = .ok x ∧
      encryptChecked des heaps.encrypt x.keys x.data = .error ⟨27, 1⟩ ∧
      x.printed = [jstr "Инициализированный массив - " ++ key,
        jstr "Инициализированный массив 2 - " ++ data, jstr "Зашифрованный массив - " ++ cipher,
        jstr "Расшифрованный массив - " ++ plain] ∧
      key.length = 16 ∧ data.length = 20 ∧ cipher.length = 24 ∧
      plain.length = 16 + (heaps.encrypt 23).toNat ∧
      (plain = data ↔ heaps.encrypt 23 = 4) := by
  obtain ⟨keys, hkeys, hlen⟩ := length_onCreateKeys drbg e e' heaps.randomBytes
  have hdata := length_onCreateData nextInt
  have hbyte := (heaps.encrypt 23).toNat_lt
  have hsize : cipherSize 20 = 24 := rfl
  obtain ⟨out, p, hout, hp, helements⟩ := decrypt_encrypt_read hinv hlen
    (by omega : 0 < (onCreateData nextInt).bytes.length) (by omega) heaps.encrypt heaps.decrypt
    (by rw [hdata, hsize, lengthByte_twenty]; omega)
  have hcipher := congrArg List.length (encrypt_admits hlen (by omega) hout)
  rw [out.length_elements, length_ecb _ (by rw [length_data_tail]; exact cipherSize_mod _),
    length_data_tail, hdata, hsize] at hcipher
  rw [hdata, lengthByte_twenty, hsize] at helements
  have hplain := congrArg List.length helements
  rw [p.length_elements, Memory.length_read] at hplain
  refine ⟨⟨keys, onCreateData nextInt, out, p⟩, _, _, _, _, ?_, ?_, rfl, ?_, ?_, ?_, ?_, ?_⟩
  · rw [onCreateExample, hkeys]
    show (encrypt des heaps.encrypt keys (onCreateData nextInt) >>= _) = _
    rw [hout]
    show (decrypt des heaps.decrypt keys out >>= _) = _
    rw [hp]
    rfl
  · exact encryptChecked_onCreateData nextInt hlen heaps.encrypt
  · rw [usAscii, List.length_map, hlen]
  · rw [usAscii, List.length_map, hdata]
  · rw [usAscii, List.length_map, hcipher]
  · rw [usAscii, List.length_map, hplain]
  · have hfour : (4 : UInt8).toNat = 4 := rfl
    rw [usAscii_eq_iff helements, hdata, ← UInt8.toNat_inj, hfour]
    omega

end Example

/-- A generator whose bytes are `0xFF` and `0x41` in turn. -/
def turnDrbg : CtrDrbg Unit Unit where
  zero := ()
  init := ()
  seed _ _ := (0, ())
  random _ _ _ := (.ok fun i => if i.val % 2 = 0 then 0xFF else 0x41, ())

/-- Triple DES under the key it generates, on the blocks of the data below with four cells of the
heap. -/
def turnDes3 : Des3 Bool := tableDes3
  [(blockOf [0x00, 0x01, 0x02, 0x03, 0x04, 0x05, 0x06, 0x07] 0,
      blockOf [0x9f, 0xfa, 0x54, 0x84, 0x92, 0x20, 0xe5, 0x3b] 0),
    (blockOf [0x08, 0x09, 0x0a, 0x0b, 0x0c, 0x0d, 0x0e, 0x0f] 0,
      blockOf [0x31, 0xe8, 0x95, 0xc6, 0x99, 0x68, 0x60, 0x25] 0),
    (blockOf [0x10, 0x11, 0x12, 0x13, 0x04, 0x04, 0x04, 0x04] 0,
      blockOf [0xd5, 0x2a, 0x60, 0x29, 0xe0, 0xb4, 0x06, 0x0a] 0)]

/-- A heap full of fours: the data come back. -/
theorem onCreateExample_fours : ∃ x key data cipher,
    onCreateExample turnDes3 turnDrbg () () ⟨fun _ => 0, fun _ => 4, fun _ => 0⟩
      (fun i => Int32.ofNat i) = .ok x ∧
    x.printed = [jstr "Инициализированный массив - " ++ key,
      jstr "Инициализированный массив 2 - " ++ data, jstr "Зашифрованный массив - " ++ cipher,
      jstr "Расшифрованный массив - " ++ data] := by
  obtain ⟨x, key, data, cipher, plain, hx, -, hprinted, -, -, -, -, hiff⟩ :=
    onCreateExample_iff turnDrbg () () ⟨fun _ => 0, fun _ => 4, fun _ => 0⟩
      (fun i => Int32.ofNat i) (tableDes3_inverse _)
  obtain rfl := hiff.2 rfl
  exact ⟨x, key, plain, cipher, hx, hprinted⟩

/-! ## The key in the log -/

theorem neg_iff (b : JByte) : b < 0 ↔ 128 ≤ (byteEquiv b).val := by
  rw [Int8.lt_iff_toInt_lt]
  show b.toBitVec.toInt < 0 ↔ _
  rw [BitVec.toInt_neg_iff]
  show 2 ^ 8 ≤ 2 * b.toBitVec.toNat ↔ 128 ≤ b.toBitVec.toNat
  omega

theorem usAsciiChar_eq_replacement (b : JByte) : usAsciiChar b = 0xFFFD ↔ b < 0 := by
  unfold usAsciiChar
  split
  · exact iff_of_true rfl ‹_›
  · refine iff_of_false (fun h => ?_) ‹_›
    have hlt := b.toUInt8.toNat_lt
    have hnat := congrArg UInt16.toNat h
    rw [UInt8.toNat_toUInt16] at hnat
    have hrep : (0xFFFD : UInt16).toNat = 65533 := rfl
    omega

theorem usAsciiChar_inj {b c : JByte} (hc : ¬ c < 0) : usAsciiChar b = usAsciiChar c ↔ b = c := by
  constructor
  · intro h
    have hb : ¬ b < 0 := fun hb => hc ((usAsciiChar_eq_replacement c).1
      (h.symm.trans ((usAsciiChar_eq_replacement b).2 hb)))
    rw [usAsciiChar, if_neg hb, usAsciiChar, if_neg hc] at h
    have hnat := congrArg UInt16.toNat h
    rw [UInt8.toNat_toUInt16, UInt8.toNat_toUInt16] at hnat
    rw [← Int8.toInt8_toUInt8 b, UInt8.toNat_inj.1 hnat, Int8.toInt8_toUInt8]
  · rintro rfl
    rfl

theorem card_neg : Nat.card {b : JByte // b < 0} = 128 := by
  rw [Nat.card_congr (byteEquiv.subtypeEquiv (q := fun i : Fin 256 => 128 ≤ i.val) neg_iff),
    Nat.card_eq_fintype_card]
  decide +kernel

/-- The bytes that are read as one character. -/
theorem card_usAsciiChar (c : JByte) : Nat.card {b : JByte // usAsciiChar b = usAsciiChar c} =
    if usAsciiChar c = 0xFFFD then 128 else 1 := by
  split
  · rename_i hc
    simp only [hc, usAsciiChar_eq_replacement, card_neg]
  · rename_i hc
    rw [usAsciiChar_eq_replacement] at hc
    simp only [usAsciiChar_inj hc, Nat.card_unique]

theorem usAscii_ofFn {n : Nat} (k k' : Fin n → JByte) :
    usAscii (List.ofFn k') = usAscii (List.ofFn k) ↔
      ∀ i, usAsciiChar (k' i) = usAsciiChar (k i) := by
  rw [usAscii, usAscii, List.map_ofFn, List.map_ofFn, List.ofFn_inj]
  exact funext_iff

theorem prod_map_count (l : JString) :
    (l.map fun c => if c = 0xFFFD then 128 else 1).prod = 128 ^ l.count 0xFFFD := by
  induction l with
  | nil => rfl
  | cons c l ih =>
    rw [List.map_cons, List.prod_cons, ih]
    by_cases hc : c = 0xFFFD
    · rw [if_pos hc, hc, List.count_cons_self, Nat.pow_succ, Nat.mul_comm]
    · rw [if_neg hc, List.count_cons_of_ne hc, Nat.one_mul]

theorem card_usAscii {n : Nat} (k : Fin n → JByte) :
    Nat.card {k' : Fin n → JByte // usAscii (List.ofFn k') = usAscii (List.ofFn k)} =
      128 ^ (usAscii (List.ofFn k)).count 0xFFFD := by
  simp only [usAscii_ofFn]
  rw [Nat.card_congr (Equiv.subtypePiEquivPi (p := fun i b => usAsciiChar b = usAsciiChar (k i))),
    Nat.card_pi, ← prod_map_count, usAscii, List.map_ofFn, List.map_ofFn, List.prod_ofFn]
  exact Finset.prod_congr rfl fun i _ => card_usAsciiChar (k i)

/-- The key with these bytes. -/
def keyOf (k : Fin 16 → JByte) : JByteArray where
  bytes := List.ofFn k
  size_lt := by
    rw [List.length_ofFn]
    omega

theorem keyOf_injective : Function.Injective keyOf := by
  intro k k' h
  exact List.ofFn_injective (congrArg JByteArray.bytes h)

theorem exists_ofFn {α : Type*} {n : Nat} {l : List α} (h : l.length = n) :
    ∃ k : Fin n → α, List.ofFn k = l := by
  subst h
  exact ⟨l.get, List.ofFn_get l⟩

theorem exists_keyOf {keys : JByteArray} (h : keys.bytes.length = 16) : ∃ k, keyOf k = keys := by
  obtain ⟨k, hk⟩ := exists_ofFn h
  exact ⟨k, JByteArray.ext hk⟩

section KeyLine

variable {Ctx σ ε : Type} {des : Des3 Ctx} {drbg : CtrDrbg σ ε} {e e' : ε} {heaps : Heaps}
  {nextInt : Fin 20 → JInt}

theorem length_keys {x : Example} (h : onCreateExample des drbg e e' heaps nextInt = .ok x) :
    x.keys.bytes.length = 16 := by
  obtain ⟨keys, hkeys, hlen⟩ := length_onCreateKeys drbg e e' heaps.randomBytes
  simp only [onCreateExample, hkeys, bind, Except.bind] at h
  split at h
  · cases h
  · split at h
    · cases h
    · cases h
      exact hlen

theorem printed_head_eq_iff (x : Example) (keys : JByteArray) :
    (Example.printed { x with keys := keys }).head? = x.printed.head? ↔
      usAscii keys.bytes = usAscii x.keys.bytes := by
  simp only [Example.printed, List.head?_cons, Option.some.injEq, List.append_cancel_left_eq]

theorem count_printed_head (x : Example) :
    (x.printed.headD []).count 0xFFFD = (usAscii x.keys.bytes).count 0xFFFD := by
  have hlabel : (jstr "Инициализированный массив - ").count 0xFFFD = 0 := by decide +kernel
  rw [Example.printed, List.headD_cons, List.count_append, hlabel, Nat.zero_add]

/-- **The first line of the log** leaves 128 possibilities for each byte of the key that is printed
as U+FFFD, and one for every other. -/
theorem card_keys_of_line {x : Example}
    (h : onCreateExample des drbg e e' heaps nextInt = .ok x) :
    Nat.card {keys : JByteArray // keys.bytes.length = 16 ∧
      (Example.printed { x with keys := keys }).head? = x.printed.head?} =
      128 ^ (x.printed.headD []).count 0xFFFD := by
  obtain ⟨k, hk⟩ := exists_keyOf (length_keys h)
  have hbytes : x.keys.bytes = List.ofFn k := by rw [← hk, keyOf]
  simp only [printed_head_eq_iff, count_printed_head, hbytes]
  rw [← card_usAscii k]
  symm
  refine Nat.card_eq_of_bijective (fun k' => ⟨keyOf k'.1, List.length_ofFn, k'.2⟩) ⟨?_, ?_⟩
  · intro k₁ k₂ he
    exact Subtype.ext (keyOf_injective (congrArg Subtype.val he))
  · rintro ⟨keys, hlen, hline⟩
    obtain ⟨k', rfl⟩ := exists_keyOf hlen
    exact ⟨⟨k', hline⟩, rfl⟩

end KeyLine

/-- Every second byte of the key is printed as U+FFFD. -/
theorem card_keys_of_line_turn : ∃ x,
    onCreateExample turnDes3 turnDrbg () () ⟨fun _ => 0, fun _ => 4, fun _ => 0⟩
      (fun i => Int32.ofNat i) = .ok x ∧
    Nat.card {keys : JByteArray // keys.bytes.length = 16 ∧
      (Example.printed { x with keys := keys }).head? = x.printed.head?} = 128 ^ 8 := by
  have hok : (onCreateExample turnDes3 turnDrbg () () ⟨fun _ => 0, fun _ => 4, fun _ => 0⟩
      (fun i => Int32.ofNat i)).toOption.map (fun x => (x.printed.headD []).count 0xFFFD) =
        some 8 := by decide +kernel
  cases hx : onCreateExample turnDes3 turnDrbg () () ⟨fun _ => 0, fun _ => 4, fun _ => 0⟩
      (fun i => Int32.ofNat i) with
  | error fault =>
    rw [hx] at hok
    cases hok
  | ok x =>
    rw [hx] at hok
    have hcount : (x.printed.headD []).count 0xFFFD = 8 := Option.some.inj hok
    exact ⟨x, rfl, hcount ▸ card_keys_of_line hx⟩

end Fclient.Verify
