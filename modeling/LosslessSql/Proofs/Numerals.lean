import LosslessSql.Proofs.Ordinal
import Mathlib.Data.Nat.Digits.Lemmas
import Mathlib.Tactic.Ring

/-!
# Numerals

The digits of an ordinal parameter are a numeral: by its places it denotes a number, and it may begin with
zeros that do not count.  Both are said here without the functions that read and write digits: the number by
the powers of ten (`placeValue`), the zeros by the form of the numeral (`PaddedBy`).

* `decimalValue_eq_placeValue`: digits are read by their places.
* `paddedBy_leadingZeros`: zeros are counted up to the last digit.
* `Ordinal.ofDigits?_eq_some_iff`: an ordinal is read from its spelling and from nothing else.
* `Ordinal.reading_and_spelling`: **what is read from a numeral, what is refused, and what an ordinal
  refers to.**
-/

namespace LosslessSql

/-- The number that digits denote by their places: each counts ten times as much as the one behind it. -/
def placeValue (digits : List Char) : Nat :=
  Nat.ofDigits 10 (digits.reverse.map fun c => c.toNat - '0'.toNat)

/-- A numeral begins with `padding` zeros, the last digit apart: of what follows them, only the last digit
alone can begin with a zero. -/
def PaddedBy (padding : Nat) (digits : List Char) : Prop :=
  ∃ rest, digits = List.replicate padding '0' ++ rest ∧ rest ≠ [] ∧
    (rest.head? = some '0' → rest.length = 1)

/-! ### The number -/

theorem placeValue_cons (c : Char) (cs : List Char) :
    placeValue (c :: cs) = placeValue cs + 10 ^ cs.length * (c.toNat - '0'.toNat) := by
  rw [placeValue, List.reverse_cons, List.map_append, Nat.ofDigits_append, List.map_singleton,
    Nat.ofDigits_singleton, List.length_map, List.length_reverse]
  rfl

theorem ofDigitChars_eq (digits : List Char) (n : Nat) :
    Nat.ofDigitChars 10 digits n = 10 ^ digits.length * n + placeValue digits := by
  induction digits generalizing n with
  | nil => simp [placeValue]
  | cons c cs ih =>
    rw [Nat.ofDigitChars_cons, ih, placeValue_cons, List.length_cons]
    ring

/-- **Digits are read by their places.** -/
theorem decimalValue_eq_placeValue (digits : List Char) : decimalValue digits = placeValue digits := by
  rw [decimalValue, ofDigitChars_eq, Nat.mul_zero, Nat.zero_add]

/-! ### The zeros before it -/

theorem leadingZeros_zero_cons (d : Char) (cs : List Char) :
    leadingZeros ('0' :: d :: cs) = leadingZeros (d :: cs) + 1 := by
  simp [leadingZeros]

theorem leadingZeros_of_ne {c : Char} (h : c ≠ '0') (cs : List Char) : leadingZeros (c :: cs) = 0 := by
  cases cs <;> simp [leadingZeros, h]

theorem paddedBy_leadingZeros {digits : List Char} (h : digits ≠ []) :
    PaddedBy (leadingZeros digits) digits := by
  induction digits with
  | nil => exact absurd rfl h
  | cons c cs ih =>
    cases cs with
    | nil => exact ⟨[c], rfl, h, fun _ => rfl⟩
    | cons d cs =>
      by_cases hc : c = '0'
      · subst hc
        obtain ⟨rest, hrest, hne, hone⟩ := ih (List.cons_ne_nil d cs)
        refine ⟨rest, ?_, hne, hone⟩
        rw [leadingZeros_zero_cons, List.replicate_succ, List.cons_append, ← hrest]
      · rw [leadingZeros_of_ne hc]
        exact ⟨c :: d :: cs, rfl, h, fun hhead => absurd (Option.some.inj hhead) hc⟩

/-! ### Ordinals -/

namespace Ordinal

theorem isDigit_iff {c : Char} : c.isDigit = true ↔ '0' ≤ c ∧ c ≤ '9' := by
  simp [Char.isDigit, Char.le_def]

/-- **An ordinal is read from its spelling and from nothing else**, if it is not negative; otherwise it is
never read. -/
theorem ofDigits?_eq_some_iff {digits : List Char} {o : Ordinal} :
    ofDigits? digits = some o ↔ 0 ≤ o.value.toInt ∧ o.spelling = digits := by
  refine ⟨?_, ?_⟩
  · intro h
    exact ⟨nonneg_of_ofDigits? h, spelling_of_ofDigits? h⟩
  · rintro ⟨hnonneg, rfl⟩
    exact ofDigits?_spelling hnonneg

/-- **What is refused**: an empty text, a text with anything but digits, and too large a number. -/
theorem ofDigits?_refused_iff {digits : List Char} :
    ofDigits? digits = none ↔ digits = [] ∨ (∃ c ∈ digits, ¬ ('0' ≤ c ∧ c ≤ '9')) ∨
      2 ^ 63 - 1 < placeValue digits := by
  by_cases hne : digits = []
  · subst hne
    simp [ofDigits?]
  by_cases hall : ∀ c ∈ digits, c.isDigit = true
  · have hdigits : ¬ ∃ c ∈ digits, ¬ ('0' ≤ c ∧ c ≤ '9') := by
      rintro ⟨c, hc, hother⟩
      exact hother (isDigit_iff.mp (hall c hc))
    rw [ofDigits?_eq_none_iff hne hall, decimalValue_eq_placeValue, maxValue]
    simp only [hne, hdigits, false_or]
    omega
  · have hrefused : ofDigits? digits = none :=
      if_neg fun hread => hall (List.all_eq_true.mp hread.2.1)
    refine ⟨fun _ => Or.inr (Or.inl ?_), fun _ => hrefused⟩
    by_contra hnone
    apply hall
    intro c hc
    by_contra hother
    exact hnone ⟨c, hc, fun hdigit => hother (isDigit_iff.mpr hdigit)⟩

theorem placeValue_spelling {o : Ordinal} (h : 0 ≤ o.value.toInt) :
    o.value.toInt = placeValue o.spelling := by
  rw [← decimalValue_eq_placeValue, decimalValue_spelling h, Int.toNat_of_nonneg h]

theorem paddedBy_spelling {o : Ordinal} (h : 0 ≤ o.value.toInt) : PaddedBy o.padding o.spelling := by
  have hpadded := paddedBy_leadingZeros (spelling_ne_nil_of_nonneg h)
  rwa [leadingZeros_spelling h] at hpadded

theorem index?_eq_some_iff {o : Ordinal} {i : Nat} : o.index? = some i ↔ o.value.toInt = i + 1 := by
  unfold index?
  split
  · simp only [Option.some.injEq]
    omega
  · simp only [reduceCtorEq, false_iff]
    omega

/-- **What is read from a numeral, what is refused, and what an ordinal refers to.**  A text is refused
exactly if it is empty, holds anything but digits, or denotes a number from `2 ^ 63` on.  Otherwise the
ordinal that is read is spelled as the text, with the number that the text denotes and the zeros that it
begins with.  An ordinal is read back from its spelling exactly if it is not negative, and it refers to the
position before its value, counted from zero, if there is one. -/
theorem reading_and_spelling (d : String) (o : Ordinal) (i : Nat) :
    (ofDigits? d.toList = none ↔ d = "" ∨ (∃ c ∈ d.toList, ¬ ('0' ≤ c ∧ c ≤ '9')) ∨
      2 ^ 63 - 1 < placeValue d.toList) ∧
    (ofDigits? d.toList = some o ↔ String.ofList o.spelling = d ∧
      o.value.toInt = placeValue d.toList ∧ PaddedBy o.padding d.toList) ∧
    (ofDigits? o.spelling = some o ↔ 0 ≤ o.value.toInt) ∧
    (o.index? = some i ↔ o.value.toInt = i + 1) := by
  refine ⟨?_, ?_, ?_, index?_eq_some_iff⟩
  · rw [ofDigits?_refused_iff, String.toList_eq_nil_iff]
  · rw [ofDigits?_eq_some_iff]
    refine ⟨?_, ?_⟩
    · rintro ⟨hnonneg, hspelling⟩
      rw [← hspelling]
      refine ⟨?_, placeValue_spelling hnonneg, paddedBy_spelling hnonneg⟩
      rw [hspelling, String.ofList_toList]
    · rintro ⟨hspelling, hvalue, _⟩
      refine ⟨by omega, ?_⟩
      rw [← hspelling, String.toList_ofList]
  · rw [ofDigits?_eq_some_iff]
    exact and_iff_left rfl

end Ordinal

end LosslessSql
