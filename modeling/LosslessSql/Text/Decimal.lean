/-!
# Decimal numbers as text

Numbers are written in decimal without leading zeros, and a minus sign stands before a negative
one.  `decimalValue` reads a run of digits back.

* `decimalValue_decimalNat`: reading what was written gives the number.
* `replicate_append_decimalNat`: a run of digits is the zeros it begins with, then its value
  written out; the last digit is never one of those zeros.
-/

namespace LosslessSql

def decimalNat (n : Nat) : List Char :=
  Nat.toDigits 10 n

def decimalInt : Int → List Char
  | .ofNat n => decimalNat n
  | .negSucc n => '-' :: decimalNat (n + 1)

def decimalValue (digits : List Char) : Nat :=
  Nat.ofDigitChars 10 digits 0

/-- The number of zeros at the head of a run of digits, the last digit apart. -/
def leadingZeros (digits : List Char) : Nat :=
  (digits.dropLast.takeWhile (· == '0')).length

@[simp] theorem decimalValue_decimalNat (n : Nat) : decimalValue (decimalNat n) = n :=
  Nat.ofDigitChars_toDigits (by decide) (by decide)

@[simp] theorem decimalInt_natCast (n : Nat) : decimalInt (n : Int) = decimalNat n := rfl

/-! ### From digits to a number and back -/

theorem isDigit_bounds {c : Char} (h : c.isDigit = true) : 48 ≤ c.toNat ∧ c.toNat ≤ 57 := by
  simp only [Char.isDigit, Bool.and_eq_true, decide_eq_true_eq, ge_iff_le,
    UInt32.le_iff_toNat_le] at h
  exact h

theorem decimalNat_digit {c : Char} (h : c.isDigit = true) : decimalNat (c.toNat - 48) = [c] := by
  have hb := isDigit_bounds h
  rw [decimalNat, Nat.toDigits_of_lt_base (by omega)]
  congr 1
  apply Char.toNat_inj.mp
  rw [Nat.toNat_digitChar_of_lt_ten (by omega)]
  omega

/-- Digits written after a positive number extend it. -/
theorem decimalNat_append {n : Nat} (hn : 0 < n) {cs : List Char}
    (h : cs.all Char.isDigit = true) :
    decimalNat n ++ cs = decimalNat (Nat.ofDigitChars 10 cs n) := by
  induction cs generalizing n with
  | nil => rw [List.append_nil, Nat.ofDigitChars_nil]
  | cons c cs ih =>
    rw [List.all_cons, Bool.and_eq_true] at h
    have hb := isDigit_bounds h.1
    have hstep : decimalNat n ++ [c] = decimalNat (10 * n + (c.toNat - 48)) := by
      rw [← decimalNat_digit h.1]
      exact Nat.toDigits_append_toDigits (by decide) hn (by omega)
    rw [Nat.ofDigitChars_cons, ← List.singleton_append, ← List.append_assoc, hstep]
    exact ih (by omega) h.2

theorem replicate_append_decimalNat {digits : List Char} (hne : digits ≠ [])
    (h : digits.all Char.isDigit = true) :
    List.replicate (leadingZeros digits) '0' ++ decimalNat (decimalValue digits) = digits := by
  induction digits with
  | nil => exact absurd rfl hne
  | cons c cs ih =>
    rw [List.all_cons, Bool.and_eq_true] at h
    have hvalue : decimalValue (c :: cs) = Nat.ofDigitChars 10 cs (c.toNat - 48) := by
      rw [decimalValue, Nat.ofDigitChars_cons]
      simp
    cases cs with
    | nil =>
      rw [hvalue, Nat.ofDigitChars_nil, decimalNat_digit h.1]
      rfl
    | cons d cs =>
      by_cases hc : c = '0'
      · subst hc
        have hzeros : leadingZeros ('0' :: d :: cs) = leadingZeros (d :: cs) + 1 := by
          simp [leadingZeros]
        rw [hzeros, hvalue, List.replicate_succ, List.cons_append]
        congr 1
        exact ih (List.cons_ne_nil d cs) h.2
      · have hzeros : leadingZeros (c :: d :: cs) = 0 := by
          simp [leadingZeros, hc]
        have hpos : 0 < c.toNat - 48 := by
          have hb := isDigit_bounds h.1
          have hne48 : c.toNat ≠ 48 := fun he => hc (Char.toNat_inj.mp he)
          omega
        rw [hzeros, hvalue, ← decimalNat_append hpos h.2, decimalNat_digit h.1]
        rfl

end LosslessSql
