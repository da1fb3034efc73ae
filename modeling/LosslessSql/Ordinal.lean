import LosslessSql.Text.Decimal

/-!
# Ordinal parameters

The number of an ordinal parameter such as `$7` or `$007`.  Its value is a 64-bit signed integer,
and the zeros written before it are remembered, so that the spelling can be given back.

* `spelling_of_ofDigits?`: what was read is spelled as it was.
-/

namespace LosslessSql

/-- The number of an ordinal parameter, and how many zeros are written before it. -/
structure Ordinal where
  value : Int64
  padding : Nat
deriving DecidableEq, Repr

namespace Ordinal

/-- The largest value that digits may denote, the largest 64-bit signed integer. -/
def maxValue : Nat := 9223372036854775807

def ofValue (value : Int64) : Ordinal :=
  ⟨value, 0⟩

/-- Reads a run of ASCII digits.  Any number of leading zeros is allowed, and the last digit is
never counted as one; anything else than digits, no digit at all, and a value that does not fit are
refused. -/
def ofDigits? (digits : List Char) : Option Ordinal :=
  if digits ≠ [] ∧ digits.all Char.isDigit ∧ decimalValue digits ≤ maxValue then
    some ⟨Int64.ofNat (decimalValue digits), leadingZeros digits⟩
  else
    none

def spelling (o : Ordinal) : List Char :=
  List.replicate o.padding '0' ++ decimalInt o.value.toInt

theorem spelling_of_ofDigits? {digits : List Char} {o : Ordinal} (h : ofDigits? digits = some o) :
    o.spelling = digits := by
  unfold ofDigits? at h
  split at h
  case isTrue hd =>
    obtain ⟨hne, hall, hle⟩ := hd
    have hvalue : (Int64.ofNat (decimalValue digits)).toInt = (decimalValue digits : Int) :=
      Int64.toInt_ofNat_of_lt (by simp only [maxValue] at hle; omega)
    rw [← Option.some.inj h, spelling, hvalue, decimalInt_natCast]
    exact replicate_append_decimalNat hne hall
  case isFalse => exact absurd h (by simp)

/-- The zero-based position that an ordinal refers to; values below one refer to none. -/
def index? (o : Ordinal) : Option Nat :=
  if 1 ≤ o.value.toInt then some (o.value.toInt - 1).toNat else none

end Ordinal

end LosslessSql
