import Fclient.Jni
import Mathlib.Data.Nat.Digits.Defs

/-!
# `java.lang.Long.valueOf` and `java.text.DecimalFormat`

The parts of the two that `PinpadActivity` uses: parsing a decimal `Long`, and rendering an integer
by a pattern of `#`, `,`, `0` and one `.`. The separators come from the locale.
-/

namespace Fclient.Client

def digitChar (d : Nat) : JChar := UInt16.ofNat (0x30 + d)

/-! ## Parsing -/

structure NumberFormatException where
  input : JString
  deriving DecidableEq, Repr

/-- `Character.digit(c, 10)` on ASCII, the only characters that reach it here. -/
def digitValue (c : JChar) : Option Nat :=
  if 0x30 ≤ c ∧ c ≤ 0x39 then some (c.toNat - 0x30) else none

def parseDigits (s : JString) : Option Nat :=
  s.foldlM (fun acc c => (digitValue c).map (acc * 10 + ·)) 0

/-- `Long.valueOf(String)`: an optional sign, at least one digit, and a value in range. -/
def longValueOf (s : JString) : Except NumberFormatException Int :=
  let negative := s.head? == some 0x2D
  let digits := if negative ∨ s.head? == some 0x2B then s.tail else s
  match digits, parseDigits digits with
  | _ :: _, some n =>
    let v : Int := if negative then -n else n
    if -2 ^ 63 ≤ v ∧ v < 2 ^ 63 then .ok v else .error ⟨s⟩
  | _, _ => .error ⟨s⟩

/-! ## Rendering -/

def IsDigit (c : JChar) : Prop := 0x30 ≤ c ∧ c ≤ 0x39

structure DecimalFormatSymbols where
  decimalSeparator : JChar
  groupingSeparator : JChar
  ne : decimalSeparator ≠ groupingSeparator
  decimal_not_digit : ¬ IsDigit decimalSeparator
  grouping_not_digit : ¬ IsDigit groupingSeparator

structure DecimalFormat where
  groupingSize : Nat
  minimumIntegerDigits : Nat
  minimumFractionDigits : Nat
  deriving DecidableEq, Repr

/-- `new DecimalFormat(pattern)`. -/
def DecimalFormat.applyPattern (pattern : String) : DecimalFormat :=
  let int := pattern.toList.takeWhile (· ≠ '.')
  let fraction := pattern.toList.drop (int.length + 1)
  { groupingSize := if ',' ∈ int then (int.reverse.takeWhile (· ≠ ',')).length else 0
    minimumIntegerDigits := int.count '0'
    minimumFractionDigits := fraction.count '0' }

/-- Puts a separator after every `size` digits, least significant digit first; `left` digits go in
front of the next one. -/
def groupDigits (size : Nat) (sep : JChar) : Nat → List JChar → List JChar
  | _, [] => []
  | 0, d :: ds => sep :: d :: groupDigits size sep (size - 1) ds
  | left + 1, d :: ds => d :: groupDigits size sep left ds

def DecimalFormat.formatInteger (df : DecimalFormat) (sym : DecimalFormatSymbols) (n : Nat) :
    JString :=
  let digits := (Nat.digits 10 n).map digitChar
  let padded := digits ++ List.replicate (df.minimumIntegerDigits - digits.length) 0x30
  (if df.groupingSize = 0 then padded
    else groupDigits df.groupingSize sym.groupingSeparator df.groupingSize padded).reverse

/-- `format(long)`: an integer has as many fraction digits as the pattern demands, all zero. -/
def DecimalFormat.format (df : DecimalFormat) (sym : DecimalFormatSymbols) (v : Int) : JString :=
  (if v < 0 then [0x2D] else []) ++ df.formatInteger sym v.natAbs ++
    (if df.minimumFractionDigits = 0 then []
      else sym.decimalSeparator :: List.replicate df.minimumFractionDigits 0x30)

example : DecimalFormat.applyPattern "#,###,###,##0.00" = ⟨3, 1, 2⟩ := by decide

end Fclient.Client
