import LosslessSql.Lexeme.Scan
import LosslessSql.Proofs.Ordinal
import Mathlib.Data.List.Chain
import Mathlib.Data.List.TakeWhile

/-!
# The grammar of lexemes

`Lexeme/Scan.lean` says how a lexeme is cut off.  This file says what a lexeme is, without cutting:
`Leaf.WellFormed` is what the payload of a leaf may hold, `Leaf.EndsBefore` is what may not follow it
because the leaf would reach further, and `Fault.Arises` is a text that begins a lexeme without an
end.  `starts` tells from two characters where a lexeme begins.

Every rule is sound for this grammar (`Rule.sound_of_mem_all`), and so is `structured?`, which asks
them in turn (`sound_structured?`).  `Proofs/Lexeme/Exact.lean` has the other direction.
-/

namespace LosslessSql

/-- A text does not begin with a character of the class. -/
def Clear (p : Char → Bool) (cs : List Char) : Prop :=
  ∀ c ∈ cs.head?, p c = false

theorem clear_nil (p : Char → Bool) : Clear p [] := by
  simp [Clear]

@[simp] theorem clear_cons {p : Char → Bool} {c : Char} {cs : List Char} :
    Clear p (c :: cs) ↔ p c = false := by
  simp [Clear]

theorem clear_dropWhile (p : Char → Bool) (cs : List Char) : Clear p (cs.dropWhile p) := by
  intro c hc
  have hhead := List.head?_dropWhile_not p cs
  rw [Option.mem_def.mp hc] at hhead
  exact hhead

theorem takeWhile_append_clear {p : Char → Bool} {w rest : List Char}
    (hw : ∀ c ∈ w, p c = true) (hr : Clear p rest) : (w ++ rest).takeWhile p = w := by
  rw [List.takeWhile_append_of_pos hw]
  cases rest with
  | nil => simp
  | cons c cs => simp [clear_cons.mp hr]

theorem dropWhile_append_clear {p : Char → Bool} {w rest : List Char}
    (hw : ∀ c ∈ w, p c = true) (hr : Clear p rest) : (w ++ rest).dropWhile p = rest := by
  rw [List.dropWhile_append_of_pos hw]
  cases rest with
  | nil => rfl
  | cons c cs => simp [clear_cons.mp hr]

/-! ### Where a lexeme starts -/

/-- A character that begins a lexeme whatever follows it: a blank, a mark or a delimiter. -/
def startsAlone (c : Char) : Bool :=
  isBlank c || (Quote.ofMark? c).isSome || (Delimiter.ofOpening? c).isSome
    || (Delimiter.ofClosing? c).isSome

/-- Two characters that begin a comment, a cast or a parameter together. -/
def startsPair (c d : Char) : Bool :=
  c == '-' && d == '-' || c == '/' && d == '*' || c == ':' && (d == ':' || isNameStart d)
    || c == '$' && d.isDigit

def starts : List Char → Bool
  | [] => false
  | c :: cs => startsAlone c || cs.head?.any (startsPair c)

/-! ### Well-formed lexemes -/

namespace Leaf

/-- What the payload of a leaf may hold.  Plain text has no place in it where a lexeme starts. -/
def WellFormed : Leaf → Prop
  | .text s => s.toList ≠ [] ∧ (∀ c ∈ s.toList, startsAlone c = false) ∧
      s.toList.IsChain fun c d => startsPair c d = false
  | .space s => s.toList ≠ [] ∧ ∀ c ∈ s.toList, isBlank c = true
  | .quoted q body => q.mark ∉ body.toList
  | .lineComment body => ∀ c ∈ body.toList, isLineBreak c = false
  | .blockComment body => ¬ ['*', '/'] <:+: body.toList
  | .cast => True
  | .ordinal o => 0 ≤ o.value.toInt
  | .named name => name.toList.head?.any isNameStart = true ∧ ∀ c ∈ name.toList, isNamePart c = true

/-- What follows a leaf does not belong to it.  For plain text, nothing follows, or a lexeme starts
there, and not one character earlier. -/
def EndsBefore : Leaf → List Char → Prop
  | .text s, rest => (∀ c ∈ s.toList.getLast?, Clear (startsPair c) rest) ∧
      (rest = [] ∨ starts rest = true)
  | .space _, rest => Clear isBlank rest
  | .lineComment _, rest => Clear (fun c => !isLineBreak c) rest
  | .ordinal _, rest => Clear Char.isDigit rest
  | .named _, rest => Clear isNamePart rest
  | .quoted _ _, _ => True
  | .blockComment _, _ => True
  | .cast, _ => True

end Leaf

namespace Lexeme

def WellFormed : Lexeme → Prop
  | .leaf l => l.WellFormed
  | .opening _ => True
  | .closing _ => True

def EndsBefore : Lexeme → List Char → Prop
  | .leaf l, rest => l.EndsBefore rest
  | .opening _, _ => True
  | .closing _, _ => True

def isText : Lexeme → Bool
  | .leaf (.text _) => true
  | _ => false

theorem tokenKind_ne_text {x : Lexeme} (h : x.isText = false) : x.tokenKind ≠ .text := by
  cases x with
  | leaf l =>
    cases l with
    | text s => exact absurd h (by simp [isText])
    | _ => exact fun he => TokenKind.noConfusion he
  | _ => exact fun he => TokenKind.noConfusion he

end Lexeme

/-- A text begins a lexeme that has no end, or a number that does not fit. -/
def Fault.Arises : Fault → List Char → Prop
  | .openQuote q, cs => ∃ body, cs = q.mark :: body ∧ q.mark ∉ body
  | .openComment, cs => ∃ body, cs = '/' :: '*' :: body ∧ ¬ ['*', '/'] <:+: body
  | .hugeOrdinal n, cs => ∃ digits rest, cs = '$' :: (digits ++ rest) ∧ digits ≠ [] ∧
      (∀ c ∈ digits, c.isDigit = true) ∧ Clear Char.isDigit rest ∧
      Ordinal.maxValue < decimalValue digits ∧ digits.length = n

/-! ### The end of a block comment -/

namespace Rule

theorem splitCommentEnd?_cons {c : Char} {cs : List Char} (h : ¬ ['*', '/'] <+: c :: cs) :
    splitCommentEnd? (c :: cs) = (splitCommentEnd? cs).map fun (body, rest) => (c :: body, rest) := by
  rw [splitCommentEnd?]
  rintro rest rfl rfl
  exact h ⟨rest, rfl⟩

theorem splitCommentEnd?_eq_none_iff {cs : List Char} :
    splitCommentEnd? cs = none ↔ ¬ ['*', '/'] <:+: cs := by
  induction cs with
  | nil => simp [splitCommentEnd?]
  | cons c cs ih =>
    by_cases hend : ['*', '/'] <+: c :: cs
    · obtain ⟨rest, he⟩ := hend
      rw [← he]
      simp [splitCommentEnd?, List.infix_cons_iff]
    · rw [splitCommentEnd?_cons hend, List.infix_cons_iff, Option.map_eq_none_iff, ih]
      simp [hend]

theorem not_infix_of_splitCommentEnd? {cs body rest : List Char}
    (h : splitCommentEnd? cs = some (body, rest)) : ¬ ['*', '/'] <:+: body := by
  induction cs generalizing body with
  | nil => exact absurd h (by simp [splitCommentEnd?])
  | cons c cs ih =>
    by_cases hend : ['*', '/'] <+: c :: cs
    · obtain ⟨tail, he⟩ := hend
      rw [← he] at h
      simp only [List.cons_append, List.nil_append, splitCommentEnd?, Option.some.injEq,
        Prod.mk.injEq] at h
      simp [← h.1]
    · rw [splitCommentEnd?_cons hend] at h
      obtain ⟨⟨b, r⟩, hs, he⟩ := Option.map_eq_some_iff.1 h
      obtain ⟨rfl, rfl⟩ := Prod.mk.inj he
      rw [List.infix_cons_iff]
      rintro (hpre | hin)
      · have hcs := append_of_splitCommentEnd? hs
        refine hend (hpre.trans ⟨'*' :: '/' :: r, ?_⟩)
        rw [List.cons_append, hcs]
      · exact ih hs hin

/-- A body without the end of a comment is what stands before the end put behind it: a star that ends
the body makes no end together with the star behind it. -/
theorem splitCommentEnd?_append {body : List Char} (h : ¬ ['*', '/'] <:+: body) (rest : List Char) :
    splitCommentEnd? (body ++ '*' :: '/' :: rest) = some (body, rest) := by
  induction body with
  | nil => rfl
  | cons c body ih =>
    rw [List.infix_cons_iff, not_or] at h
    have hend : ¬ ['*', '/'] <+: c :: (body ++ '*' :: '/' :: rest) := by
      rw [List.cons_prefix_cons]
      intro hx
      obtain ⟨rfl, hslash⟩ := hx
      cases body with
      | nil => simp at hslash
      | cons d body =>
        rw [List.cons_append, List.cons_prefix_cons] at hslash
        obtain ⟨rfl, _⟩ := hslash
        exact h.1 ⟨body, rfl⟩
    rw [List.cons_append, splitCommentEnd?_cons hend, ih h.2]
    rfl

/-! ### What the rules find -/

/-- A rule is sound when it applies only where a lexeme starts, cuts off well-formed lexemes that end,
and finds only faults that arise. -/
structure Sound (rule : Rule) : Prop where
  starts_of_isSome {cs : List Char} : (rule cs).isSome = true → starts cs = true
  ok {cs : List Char} {cut : Cut} : rule cs = some (.ok cut) →
    cut.lexeme.isText = false ∧ cut.lexeme.WellFormed ∧ cut.lexeme.EndsBefore cut.rest
  error {cs : List Char} {f : Fault} : rule cs = some (.error f) → f.Arises cs

theorem sound_space : Sound space where
  starts_of_isSome {cs} h := by
    cases cs with
    | nil => exact absurd h (by simp [space])
    | cons c cs =>
      cases hc : isBlank c with
      | true => simp [starts, startsAlone, hc]
      | false => exact absurd h (by simp [space, hc])
  ok {cs cut} h := by
    unfold space at h
    split at h
    · exact absurd h (by simp)
    · next blanks hne =>
      cases Except.ok.inj (Option.some.inj h)
      refine ⟨rfl, ⟨?_, ?_⟩, clear_dropWhile isBlank cs⟩
      · rwa [String.toList_ofList]
      · rw [String.toList_ofList]
        exact fun c hc => List.mem_takeWhile_imp hc
  error {cs f} h := by
    unfold space at h
    split at h <;> exact absurd h (by simp)

theorem sound_quoted : Sound quoted where
  starts_of_isSome {cs} h := by
    cases cs with
    | nil => exact absurd h (by simp [quoted])
    | cons c cs =>
      rw [quoted, Option.isSome_map] at h
      simp [starts, startsAlone, h]
  ok {cs cut} h := by
    cases cs with
    | nil => exact absurd h (by simp [quoted])
    | cons c cs =>
      obtain ⟨q, hq, he⟩ := Option.map_eq_some_iff.1 h
      have hc : c = q.mark := Quote.ofMark?_eq_some_iff.1 hq
      split at he
      · exact absurd he (by simp)
      · cases Except.ok.inj he
        refine ⟨rfl, ?_, trivial⟩
        show q.mark ∉ (String.ofList (cs.takeWhile (· != c))).toList
        rw [String.toList_ofList, ← hc]
        intro hmem
        have := List.mem_takeWhile_imp hmem
        simp at this
  error {cs f} h := by
    cases cs with
    | nil => exact absurd h (by simp [quoted])
    | cons c cs =>
      obtain ⟨q, hq, he⟩ := Option.map_eq_some_iff.1 h
      have hc : c = q.mark := Quote.ofMark?_eq_some_iff.1 hq
      split at he
      · next hd =>
        cases Except.error.inj he
        refine ⟨cs, by rw [hc], ?_⟩
        rw [← hc]
        intro hmem
        have := List.dropWhile_eq_nil_iff.mp hd c hmem
        simp at this
      · exact absurd he (by simp)

theorem sound_lineComment : Sound lineComment where
  starts_of_isSome {cs} h := by
    unfold lineComment at h
    split at h
    · rfl
    · exact absurd h (by simp)
  ok {cs cut} h := by
    unfold lineComment at h
    split at h
    · next cs =>
      cases Except.ok.inj (Option.some.inj h)
      refine ⟨rfl, ?_, clear_dropWhile _ cs⟩
      show ∀ c ∈ (String.ofList (cs.takeWhile fun c => !isLineBreak c)).toList, isLineBreak c = false
      rw [String.toList_ofList]
      intro c hc
      simpa using List.mem_takeWhile_imp hc
    · exact absurd h (by simp)
  error {cs f} h := by
    unfold lineComment at h
    split at h <;> exact absurd h (by simp)

theorem sound_blockComment : Sound blockComment where
  starts_of_isSome {cs} h := by
    unfold blockComment at h
    split at h
    · rfl
    · exact absurd h (by simp)
  ok {cs cut} h := by
    unfold blockComment at h
    split at h
    · next cs =>
      have h := Option.some.inj h
      split at h
      · exact absurd h (by simp)
      · next body rest hs =>
        cases Except.ok.inj h
        refine ⟨rfl, ?_, trivial⟩
        show ¬ ['*', '/'] <:+: (String.ofList body).toList
        rw [String.toList_ofList]
        exact not_infix_of_splitCommentEnd? hs
    · exact absurd h (by simp)
  error {cs f} h := by
    unfold blockComment at h
    split at h
    · next cs =>
      have h := Option.some.inj h
      split at h
      · next hs =>
        cases Except.error.inj h
        exact ⟨cs, rfl, splitCommentEnd?_eq_none_iff.mp hs⟩
      · exact absurd h (by simp)
    · exact absurd h (by simp)

theorem sound_cast : Sound cast where
  starts_of_isSome {cs} h := by
    unfold cast at h
    split at h
    · rfl
    · exact absurd h (by simp)
  ok {cs cut} h := by
    unfold cast at h
    split at h
    · cases Except.ok.inj (Option.some.inj h)
      exact ⟨rfl, trivial, trivial⟩
    · exact absurd h (by simp)
  error {cs f} h := by
    unfold cast at h
    split at h <;> exact absurd h (by simp)

theorem sound_ordinal : Sound ordinal where
  starts_of_isSome {cs} h := by
    unfold ordinal at h
    split at h
    · next cs =>
      cases cs with
      | nil => exact absurd h (by simp)
      | cons d cs =>
        cases hd : d.isDigit with
        | true => simp [starts, startsPair, hd]
        | false => exact absurd h (by simp [hd])
    · exact absurd h (by simp)
  ok {cs cut} h := by
    unfold ordinal at h
    split at h
    · next cs =>
      split at h
      · exact absurd h (by simp)
      · have h := Option.some.inj h
        split at h
        · exact absurd h (by simp)
        · next o ho =>
          cases Except.ok.inj h
          exact ⟨rfl, Ordinal.nonneg_of_ofDigits? ho, clear_dropWhile _ cs⟩
    · exact absurd h (by simp)
  error {cs f} h := by
    unfold ordinal at h
    split at h
    · next cs =>
      split at h
      · exact absurd h (by simp)
      · next digits hne =>
        have hdigits : ∀ c ∈ cs.takeWhile Char.isDigit, c.isDigit = true :=
          fun c hc => List.mem_takeWhile_imp hc
        have h := Option.some.inj h
        split at h
        · next hhuge =>
          cases Except.error.inj h
          refine ⟨cs.takeWhile Char.isDigit, cs.dropWhile Char.isDigit, ?_, hne, hdigits,
            clear_dropWhile _ cs, ?_, rfl⟩
          · rw [List.takeWhile_append_dropWhile]
          · exact (Ordinal.ofDigits?_eq_none_iff hne hdigits).mp hhuge
        · exact absurd h (by simp)
    · exact absurd h (by simp)

theorem isNamePart_of_isNameStart {c : Char} (h : isNameStart c = true) : isNamePart c = true := by
  simp only [isNameStart, isNamePart, Char.isAlphanum, Bool.or_eq_true] at h ⊢
  rcases h with h | h
  · exact Or.inl (Or.inl h)
  · exact Or.inr h

theorem sound_named : Sound named where
  starts_of_isSome {cs} h := by
    unfold named at h
    split at h
    · next c cs =>
      split at h
      · next hc => simp [starts, startsPair, hc]
      · exact absurd h (by simp)
    · exact absurd h (by simp)
  ok {cs cut} h := by
    unfold named at h
    split at h
    · next c cs =>
      split at h
      · next hc =>
        cases Except.ok.inj (Option.some.inj h)
        refine ⟨rfl, ⟨?_, ?_⟩, clear_dropWhile _ cs⟩
        · rw [String.toList_ofList]
          exact hc
        · rw [String.toList_ofList]
          intro d hd
          rcases List.mem_cons.mp hd with rfl | hd
          · exact isNamePart_of_isNameStart hc
          · exact List.mem_takeWhile_imp hd
      · exact absurd h (by simp)
    · exact absurd h (by simp)
  error {cs f} h := by
    unfold named at h
    split at h
    · split at h <;> exact absurd h (by simp)
    · exact absurd h (by simp)

theorem sound_opening : Sound opening where
  starts_of_isSome {cs} h := by
    cases cs with
    | nil => exact absurd h (by simp [opening])
    | cons c cs =>
      rw [opening, Option.isSome_map] at h
      simp [starts, startsAlone, h]
  ok {cs cut} h := by
    cases cs with
    | nil => exact absurd h (by simp [opening])
    | cons c cs =>
      obtain ⟨d, _, he⟩ := Option.map_eq_some_iff.1 h
      cases Except.ok.inj he
      exact ⟨rfl, trivial, trivial⟩
  error {cs f} h := by
    cases cs with
    | nil => exact absurd h (by simp [opening])
    | cons c cs => exact absurd h (by simp [opening])

theorem sound_closing : Sound closing where
  starts_of_isSome {cs} h := by
    cases cs with
    | nil => exact absurd h (by simp [closing])
    | cons c cs =>
      rw [closing, Option.isSome_map] at h
      simp [starts, startsAlone, h]
  ok {cs cut} h := by
    cases cs with
    | nil => exact absurd h (by simp [closing])
    | cons c cs =>
      obtain ⟨d, _, he⟩ := Option.map_eq_some_iff.1 h
      cases Except.ok.inj he
      exact ⟨rfl, trivial, trivial⟩
  error {cs f} h := by
    cases cs with
    | nil => exact absurd h (by simp [closing])
    | cons c cs => exact absurd h (by simp [closing])

theorem sound_of_mem_all {rule : Rule} (h : rule ∈ all) : Sound rule := by
  simp only [all, List.mem_cons, List.not_mem_nil, or_false] at h
  rcases h with rfl | rfl | rfl | rfl | rfl | rfl | rfl | rfl | rfl
  · exact sound_space
  · exact sound_quoted
  · exact sound_lineComment
  · exact sound_blockComment
  · exact sound_cast
  · exact sound_ordinal
  · exact sound_named
  · exact sound_opening
  · exact sound_closing

end Rule

theorem sound_structured? : Rule.Sound structured? where
  starts_of_isSome {cs} h := by
    obtain ⟨r, hr⟩ := Option.isSome_iff_exists.mp h
    obtain ⟨rule, hmem, hrule⟩ := List.exists_of_findSome?_eq_some hr
    exact (Rule.sound_of_mem_all hmem).starts_of_isSome (by rw [hrule]; rfl)
  ok {cs cut} h := by
    obtain ⟨rule, hmem, hrule⟩ := List.exists_of_findSome?_eq_some h
    exact (Rule.sound_of_mem_all hmem).ok hrule
  error {cs f} h := by
    obtain ⟨rule, hmem, hrule⟩ := List.exists_of_findSome?_eq_some h
    exact (Rule.sound_of_mem_all hmem).error hrule

end LosslessSql
