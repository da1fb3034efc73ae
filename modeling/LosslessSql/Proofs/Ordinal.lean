import LosslessSql.Ordinal

/-!
# Ordinals and their spellings

An ordinal that is not negative is spelled in digits only, and reading those digits gives it back:
`ofDigits?_spelling`.  Together with `Ordinal.spelling_of_ofDigits?` this makes spelling and reading
inverse to each other, whatever zeros stand before the value.
-/

namespace LosslessSql.Ordinal

theorem decimalValue_replicate_append (padding : Nat) (digits : List Char) :
    decimalValue (List.replicate padding '0' ++ digits) = decimalValue digits := by
  rw [decimalValue, Nat.ofDigitChars_append, Nat.ofDigitChars_replicate_zero, Nat.mul_zero]
  rfl

theorem isDigit_of_mem_decimalNat {n : Nat} {c : Char} (h : c ∈ decimalNat n) :
    c.isDigit = true :=
  Nat.isDigit_of_mem_toDigits (by decide) (by decide) h

theorem spelling_eq_of_nonneg {o : Ordinal} (h : 0 ≤ o.value.toInt) :
    o.spelling = List.replicate o.padding '0' ++ decimalNat o.value.toInt.toNat := by
  rw [spelling, ← decimalInt_natCast, Int.toNat_of_nonneg h]

theorem spelling_ne_nil_of_nonneg {o : Ordinal} (h : 0 ≤ o.value.toInt) : o.spelling ≠ [] := by
  rw [spelling_eq_of_nonneg h]
  intro he
  exact Nat.toDigits_ne_nil (List.append_eq_nil_iff.mp he).2

theorem isDigit_of_mem_spelling {o : Ordinal} (h : 0 ≤ o.value.toInt) {c : Char}
    (hc : c ∈ o.spelling) : c.isDigit = true := by
  rw [spelling_eq_of_nonneg h] at hc
  rcases List.mem_append.mp hc with hz | hd
  · rw [List.eq_of_mem_replicate hz]
    rfl
  · exact isDigit_of_mem_decimalNat hd

theorem decimalValue_spelling {o : Ordinal} (h : 0 ≤ o.value.toInt) :
    decimalValue o.spelling = o.value.toInt.toNat := by
  rw [spelling_eq_of_nonneg h, decimalValue_replicate_append, decimalValue_decimalNat]

/-- The zeros counted in a spelling are the padding: both complete the value to the same digits. -/
theorem leadingZeros_spelling {o : Ordinal} (h : 0 ≤ o.value.toInt) :
    leadingZeros o.spelling = o.padding := by
  have hall : o.spelling.all Char.isDigit = true :=
    List.all_eq_true.mpr fun c hc => isDigit_of_mem_spelling h hc
  have hsplit := replicate_append_decimalNat (spelling_ne_nil_of_nonneg h) hall
  rw [decimalValue_spelling h] at hsplit
  have hlen := congrArg List.length (hsplit.trans (spelling_eq_of_nonneg h))
  simp only [List.length_append, List.length_replicate] at hlen
  omega

/-- **Reading the spelling of an ordinal gives the ordinal back.** -/
theorem ofDigits?_spelling {o : Ordinal} (h : 0 ≤ o.value.toInt) :
    ofDigits? o.spelling = some o := by
  have hall : o.spelling.all Char.isDigit = true :=
    List.all_eq_true.mpr fun c hc => isDigit_of_mem_spelling h hc
  have hle : o.value.toInt.toNat ≤ maxValue := by
    have hlt := o.value.toInt_lt
    simp only [maxValue]
    omega
  have hvalue : Int64.ofNat o.value.toInt.toNat = o.value := by
    apply Int64.toInt_inj.mp
    rw [Int64.toInt_ofNat_of_lt (by simp only [maxValue] at hle; omega), Int.toNat_of_nonneg h]
  unfold ofDigits?
  rw [if_pos ⟨spelling_ne_nil_of_nonneg h, hall, by rw [decimalValue_spelling h]; exact hle⟩,
    decimalValue_spelling h, leadingZeros_spelling h, hvalue]

theorem nonneg_of_ofDigits? {digits : List Char} {o : Ordinal} (h : ofDigits? digits = some o) :
    0 ≤ o.value.toInt := by
  unfold ofDigits? at h
  split at h
  case isTrue hd =>
    have hle := hd.2.2
    simp only [maxValue] at hle
    rw [← Option.some.inj h, Int64.toInt_ofNat_of_lt (by omega)]
    omega
  case isFalse => exact absurd h (by simp)

theorem ofDigits?_eq_none_iff {digits : List Char} (hne : digits ≠ [])
    (hall : ∀ c ∈ digits, c.isDigit = true) :
    ofDigits? digits = none ↔ maxValue < decimalValue digits := by
  have hdigits : digits.all Char.isDigit = true := List.all_eq_true.mpr hall
  unfold ofDigits?
  by_cases hle : decimalValue digits ≤ maxValue
  · rw [if_pos ⟨hne, hdigits, hle⟩]
    simp only [reduceCtorEq, false_iff]
    omega
  · rw [if_neg (fun hd => hle hd.2.2)]
    simp only [true_iff]
    omega

end LosslessSql.Ordinal
