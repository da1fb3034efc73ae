import LosslessSql.Proofs.Lexeme.Grammar

/-!
# Searching a text by its bytes

All marks, digits and letters that matter to a lexeme are ASCII, and a byte of any other character is
never mistaken for one of them.  So a search through the bytes of a text finds what a search through its
characters finds, at the same offset.

* `utf8`: the bytes of a text; `toList_toByteArray`: they are those of the string.
* `Uniform`: a class of characters that does not tell apart the characters beyond ASCII.
* `takeWhile_utf8`: **a run of bytes of such a class is a run of characters.**
* `offsetOf?`: the first place where a text goes on in a given way; `findIdx?_utf8`: **the first byte of
  such a class is the first byte of a character.**
-/

namespace LosslessSql

def utf8 (cs : List Char) : List UInt8 :=
  cs.flatMap String.utf8EncodeChar

@[simp] theorem utf8_nil : utf8 [] = [] := rfl

@[simp] theorem utf8_cons (c : Char) (cs : List Char) :
    utf8 (c :: cs) = String.utf8EncodeChar c ++ utf8 cs := by
  simp [utf8]

@[simp] theorem utf8_append (as bs : List Char) : utf8 (as ++ bs) = utf8 as ++ utf8 bs := by
  simp [utf8]

@[simp] theorem length_utf8 (cs : List Char) : (utf8 cs).length = byteSize cs := by
  induction cs with
  | nil => rfl
  | cons c cs ih => rw [utf8_cons, List.length_append, String.length_utf8EncodeChar, ih, byteSize]

theorem toList_toByteArray (s : String) : s.toByteArray.data.toList = utf8 s.toList := by
  rw [← String.utf8Encode_toList, List.utf8Encode, List.data_toByteArray]
  rfl

/-! ### One character -/

/-- A byte of a character has the code of the character, or both are beyond ASCII. -/
theorem ofUInt8_eq_or_of_mem {c : Char} {b : UInt8} (h : b ∈ String.utf8EncodeChar c) :
    Char.ofUInt8 b = c ∨ 128 ≤ c.toNat ∧ 128 ≤ (Char.ofUInt8 b).toNat := by
  have hcode : (Char.ofUInt8 b).toNat = b.toNat := rfl
  rw [String.utf8EncodeChar] at h
  split at h
  · next hle =>
    rw [List.mem_singleton] at h
    subst h
    refine Or.inl (Char.toNat_inj.mp ?_)
    show (UInt8.ofNat c.val.toNat).toNat = c.val.toNat
    rw [UInt8.toNat_ofNat']
    omega
  · next hlt =>
    have hc : 128 ≤ c.toNat := by
      show 128 ≤ c.val.toNat
      omega
    refine Or.inr ⟨hc, ?_⟩
    rw [hcode]
    split at h
    · simp only [List.mem_cons, List.not_mem_nil, or_false] at h
      rcases h with rfl | rfl <;> rw [UInt8.toNat_ofNat'] <;> omega
    · split at h
      · simp only [List.mem_cons, List.not_mem_nil, or_false] at h
        rcases h with rfl | rfl | rfl <;> rw [UInt8.toNat_ofNat'] <;> omega
      · simp only [List.mem_cons, List.not_mem_nil, or_false] at h
        rcases h with rfl | rfl | rfl | rfl <;> rw [UInt8.toNat_ofNat'] <;> omega

/-- A class that holds all characters beyond ASCII or none of them. -/
def Uniform {β : Type} (p : Char → β) : Prop :=
  ∃ b, ∀ c : Char, 128 ≤ c.toNat → p c = b

/-- **Every byte of a character tells its class.** -/
theorem apply_ofUInt8 {β : Type} {p : Char → β} (hp : Uniform p) {c : Char} {b : UInt8}
    (h : b ∈ String.utf8EncodeChar c) : p (Char.ofUInt8 b) = p c := by
  obtain ⟨v, hv⟩ := hp
  rcases ofUInt8_eq_or_of_mem h with he | ⟨hc, hb⟩
  · rw [he]
  · rw [hv _ hb, hv c hc]

theorem exists_head_utf8 (c : Char) (cs : List Char) :
    ∃ b, (utf8 (c :: cs)).head? = some b ∧ b ∈ String.utf8EncodeChar c := by
  cases h : String.utf8EncodeChar c with
  | nil => exact absurd h String.utf8EncodeChar_ne_nil
  | cons b bs => exact ⟨b, by simp [h], List.mem_cons_self⟩

/-! ### The classes of the rules -/

theorem uniform_of_lt {p : Char → Bool} (h : ∀ c, p c = true → c.toNat < 128) : Uniform p := by
  refine ⟨false, fun c hc => ?_⟩
  by_contra hp
  have hlt := h c (Bool.not_eq_false _ ▸ hp)
  omega

theorem uniform_of_mark {β : Type} {find : Char → Option β} {mark : β → Char}
    (hfind : ∀ {c : Char} {a : β}, find c = some a ↔ c = mark a) (hmark : ∀ a, (mark a).toNat < 128) :
    Uniform find := by
  refine ⟨none, fun c hc => ?_⟩
  cases h : find c with
  | none => rfl
  | some a =>
    have hlt := hmark a
    rw [hfind.mp h] at hc
    omega

theorem uniform_isBlank : Uniform isBlank := by
  refine uniform_of_lt fun c h => ?_
  simp only [isBlank, Bool.or_eq_true, beq_iff_eq] at h
  rcases h with (((rfl | rfl) | rfl) | rfl) | rfl <;> decide

theorem isDigit_lt {c : Char} (h : c.isDigit = true) : c.toNat < 128 := by
  have hb := isDigit_bounds h
  omega

theorem isAlpha_lt {c : Char} (h : c.isAlpha = true) : c.toNat < 128 := by
  have hletter : (decide ('A'.val ≤ c.val ∧ c.val ≤ 'Z'.val) ||
      (decide ('a'.val ≤ c.val) && decide (c.val ≤ 'z'.val))) = true := h
  simp only [Bool.or_eq_true, Bool.and_eq_true, decide_eq_true_eq, UInt32.le_iff_toNat_le] at hletter
  have hupper : 'Z'.val.toNat = 90 := rfl
  have hlower : 'z'.val.toNat = 122 := rfl
  show c.val.toNat < 128
  omega

theorem uniform_isDigit : Uniform Char.isDigit :=
  uniform_of_lt fun _ h => isDigit_lt h

theorem uniform_isNameStart : Uniform isNameStart := by
  refine uniform_of_lt fun c h => ?_
  simp only [isNameStart, Bool.or_eq_true, beq_iff_eq] at h
  rcases h with h | rfl
  · exact isAlpha_lt h
  · decide

theorem uniform_isNamePart : Uniform isNamePart := by
  refine uniform_of_lt fun c h => ?_
  simp only [isNamePart, Char.isAlphanum, Bool.or_eq_true, beq_iff_eq] at h
  rcases h with (h | h) | rfl
  · exact isAlpha_lt h
  · exact isDigit_lt h
  · decide

theorem uniform_beq {m : Char} (hm : m.toNat < 128) : Uniform (· == m) := by
  refine uniform_of_lt fun c h => ?_
  rw [beq_iff_eq] at h
  rwa [h]

theorem ofUInt8_eq_iff {c m : Char} {b : UInt8} (hm : m.toNat < 128)
    (hb : b ∈ String.utf8EncodeChar c) : Char.ofUInt8 b = m ↔ c = m := by
  have hclass : (Char.ofUInt8 b == m) = (c == m) := apply_ofUInt8 (uniform_beq hm) hb
  rw [← beq_iff_eq, hclass, beq_iff_eq]

theorem mark_lt (q : Quote) : q.mark.toNat < 128 := by
  cases q <;> decide

theorem uniform_ofMark? : Uniform Quote.ofMark? :=
  uniform_of_mark Quote.ofMark?_eq_some_iff mark_lt

theorem uniform_ofOpening? : Uniform Delimiter.ofOpening? :=
  uniform_of_mark Delimiter.ofOpening?_eq_some_iff fun d => by cases d <;> decide

theorem uniform_ofClosing? : Uniform Delimiter.ofClosing? :=
  uniform_of_mark Delimiter.ofClosing?_eq_some_iff fun d => by cases d <;> decide

/-! ### Runs and searches -/

/-- **A run of bytes of a class is a run of characters.** -/
theorem takeWhile_utf8 {p : Char → Bool} (hp : Uniform p) (cs : List Char) :
    (utf8 cs).takeWhile (fun b => p (Char.ofUInt8 b)) = utf8 (cs.takeWhile p) := by
  induction cs with
  | nil => rfl
  | cons c cs ih =>
    have hclass : ∀ b ∈ String.utf8EncodeChar c, p (Char.ofUInt8 b) = p c :=
      fun b hb => apply_ofUInt8 hp hb
    rw [utf8_cons]
    cases hc : p c with
    | true =>
      rw [List.takeWhile_append_of_pos (fun b hb => (hclass b hb).trans hc), ih,
        List.takeWhile_cons_of_pos hc, utf8_cons]
    | false =>
      obtain ⟨b, bs, he⟩ := List.exists_cons_of_ne_nil (String.utf8EncodeChar_ne_nil (c := c))
      have hb : p (Char.ofUInt8 b) = false := (hclass b (he ▸ List.mem_cons_self)).trans hc
      rw [List.takeWhile_cons_of_neg (by simp [hc]), he, List.cons_append,
        List.takeWhile_cons_of_neg (by simp [hb]), utf8_nil]

/-- The byte offset of the first place of a text where what follows is as asked. -/
def offsetOf? (p : List Char → Bool) : List Char → Option Nat
  | [] => none
  | c :: cs => if p (c :: cs) then some 0 else (offsetOf? p cs).map (· + c.utf8Size)

/-- **The first byte of a class is the first byte of a character of the class.** -/
theorem findIdx?_utf8 {p : Char → Bool} (hp : Uniform p) (cs : List Char) :
    (utf8 cs).findIdx? (fun b => p (Char.ofUInt8 b)) = offsetOf? (fun cs => cs.head?.any p) cs := by
  induction cs with
  | nil => rfl
  | cons c cs ih =>
    have hclass : ∀ b ∈ String.utf8EncodeChar c, p (Char.ofUInt8 b) = p c :=
      fun b hb => apply_ofUInt8 hp hb
    rw [utf8_cons, List.findIdx?_append, ih, String.length_utf8EncodeChar, offsetOf?, List.head?_cons,
      Option.any_some]
    cases hc : p c with
    | true =>
      obtain ⟨b, bs, he⟩ := List.exists_cons_of_ne_nil (String.utf8EncodeChar_ne_nil (c := c))
      have hb : p (Char.ofUInt8 b) = true := (hclass b (he ▸ List.mem_cons_self)).trans hc
      rw [he, List.findIdx?_cons, hb]
      rfl
    | false =>
      have hnone : (String.utf8EncodeChar c).findIdx? (fun b => p (Char.ofUInt8 b)) = none :=
        List.findIdx?_eq_none_iff.mpr fun b hb => (hclass b hb).trans hc
      rw [hnone]
      rfl

theorem offsetOf?_any (p : Char → Bool) (cs : List Char) :
    offsetOf? (fun cs => cs.head?.any p) cs =
      match cs.dropWhile (fun c => !p c) with
      | [] => none
      | _ :: _ => some (byteSize (cs.takeWhile fun c => !p c)) := by
  induction cs with
  | nil => rfl
  | cons c cs ih =>
    rw [offsetOf?, List.head?_cons, Option.any_some, ih]
    cases hc : p c with
    | true => simp [hc]
    | false =>
      rw [List.dropWhile_cons_of_pos (by simp [hc]), List.takeWhile_cons_of_pos (by simp [hc])]
      cases cs.dropWhile (fun c => !p c) with
      | nil => rfl
      | cons d ds => simp [Nat.add_comm]

theorem offsetOf?_any_getD (p : Char → Bool) (cs : List Char) :
    (offsetOf? (fun cs => cs.head?.any p) cs).getD (byteSize cs) =
      byteSize (cs.takeWhile fun c => !p c) := by
  have happ := List.takeWhile_append_dropWhile (p := fun c => !p c) (l := cs)
  rw [offsetOf?_any]
  cases hd : cs.dropWhile fun c => !p c with
  | nil =>
    rw [hd, List.append_nil] at happ
    rw [happ, Option.getD_none]
  | cons d ds => rfl

theorem offsetOf?_isPrefixOf (cs : List Char) :
    offsetOf? (['*', '/'].isPrefixOf ·) cs =
      (Rule.splitCommentEnd? cs).map fun (body, _) => byteSize body := by
  induction cs with
  | nil => rfl
  | cons c cs ih =>
    rw [offsetOf?, ih]
    by_cases hend : ['*', '/'] <+: c :: cs
    · obtain ⟨rest, he⟩ := hend
      rw [← he]
      rfl
    · rw [if_neg (by rwa [ List.isPrefixOf_iff_prefix]), Rule.splitCommentEnd?_cons hend]
      cases Rule.splitCommentEnd? cs with
      | none => rfl
      | some found => simp [Nat.add_comm]

end LosslessSql
