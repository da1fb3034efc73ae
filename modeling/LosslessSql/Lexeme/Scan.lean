import LosslessSql.Lexeme
import LosslessSql.ParseError
import LosslessSql.Text.Classes

/-!
# Cutting one lexeme off a text

Each kind of structured lexeme has a rule.  A rule looks at the head of a text and either does not
apply, or cuts its lexeme off, or finds that the lexeme has no end.  At most one rule applies at any
place, so their order does not matter; where none applies, the first character is plain text.

* `structured?`: what the one rule that applies finds.
* `splitPlain`: the longest plain run at the head of a text.
* `spelling_append_rest`: the lexeme cut off and the rest make up the text.
* `spelling_ne_nil`: the lexeme cut off is never empty, so the rest is shorter than the text.
* `splitPlain_append`: nothing is lost between a plain run and what follows it.
-/

namespace LosslessSql

/-- A lexeme cut off the head of a text, and what follows it. -/
structure Cut where
  lexeme : Lexeme
  rest : List Char
deriving DecidableEq, Repr

/-- Why a lexeme that has begun cannot be cut off.  A number that does not fit is told by how many
digits it has. -/
inductive Fault where
  | openQuote (q : Quote)
  | openComment
  | hugeOrdinal (digits : Nat)
deriving DecidableEq, Repr

/-- The error that a fault makes at the byte offset `start` of a source of `size` bytes. -/
def Fault.locate (start size : Nat) : Fault → ParseError
  | .openQuote q => .unterminatedQuote q.mark ⟨start, size⟩
  | .openComment => .unterminatedComment ⟨start, size⟩
  | .hugeOrdinal digits => .ordinalOutOfRange ⟨start, start + 1 + digits⟩

/-- A rule answers `none` where it does not apply. -/
abbrev Rule := List Char → Option (Except Fault Cut)

namespace Rule

def space : Rule := fun cs =>
  match cs.takeWhile isBlank with
  | [] => none
  | blanks => some (.ok ⟨.leaf (.space (String.ofList blanks)), cs.dropWhile isBlank⟩)

/-- A quotation ends at the next mark of its own kind. -/
def quoted : Rule
  | [] => none
  | c :: cs => (Quote.ofMark? c).map fun q =>
    match cs.dropWhile (· != c) with
    | [] => .error (.openQuote q)
    | _ :: rest => .ok ⟨.leaf (.quoted q (String.ofList (cs.takeWhile (· != c)))), rest⟩

/-- A comment after two dashes ends before the next line break. -/
def lineComment : Rule
  | '-' :: '-' :: cs =>
    let body := cs.takeWhile fun c => !isLineBreak c
    some (.ok ⟨.leaf (.lineComment (String.ofList body)), cs.dropWhile fun c => !isLineBreak c⟩)
  | _ => none

/-- The text before the first `*/`, and the text after it. -/
def splitCommentEnd? : List Char → Option (List Char × List Char)
  | [] => none
  | '*' :: '/' :: cs => some ([], cs)
  | c :: cs => (splitCommentEnd? cs).map fun (body, rest) => (c :: body, rest)

/-- A block comment ends with the first `*/` after its start. -/
def blockComment : Rule
  | '/' :: '*' :: cs => some <|
    match splitCommentEnd? cs with
    | none => .error .openComment
    | some (body, rest) => .ok ⟨.leaf (.blockComment (String.ofList body)), rest⟩
  | _ => none

def cast : Rule
  | ':' :: ':' :: cs => some (.ok ⟨.leaf .cast, cs⟩)
  | _ => none

/-- A dollar sign with a maximal run of digits, of which there is at least one. -/
def ordinal : Rule
  | '$' :: cs =>
    match cs.takeWhile Char.isDigit with
    | [] => none
    | digits => some <|
      match Ordinal.ofDigits? digits with
      | none => .error (.hugeOrdinal digits.length)
      | some o => .ok ⟨.leaf (.ordinal o), cs.dropWhile Char.isDigit⟩
  | _ => none

def named : Rule
  | ':' :: c :: cs =>
    if isNameStart c then
      let name := c :: cs.takeWhile isNamePart
      some (.ok ⟨.leaf (.named (String.ofList name)), cs.dropWhile isNamePart⟩)
    else
      none
  | _ => none

def opening : Rule
  | [] => none
  | c :: cs => (Delimiter.ofOpening? c).map fun d => .ok ⟨.opening d, cs⟩

def closing : Rule
  | [] => none
  | c :: cs => (Delimiter.ofClosing? c).map fun d => .ok ⟨.closing d, cs⟩

def all : List Rule :=
  [space, quoted, lineComment, blockComment, cast, ordinal, named, opening, closing]

/-! ### Nothing is lost -/

/-- A rule is lossless when the lexeme that it cuts off is not empty and makes up the text together
with the rest. -/
def Lossless (rule : Rule) : Prop :=
  ∀ {cs : List Char} {cut : Cut}, rule cs = some (.ok cut) →
    cut.lexeme.spelling ++ cut.rest = cs ∧ cut.lexeme.spelling ≠ []

theorem lossless_space : Lossless space := by
  intro cs cut h
  unfold space at h
  split at h
  · exact absurd h (by simp)
  · next blanks hne =>
    cases Except.ok.inj (Option.some.inj h)
    simp only [Lexeme.spelling, Leaf.spelling, String.toList_ofList]
    exact ⟨List.takeWhile_append_dropWhile, hne⟩

theorem lossless_quoted : Lossless quoted := by
  intro cs cut h
  cases cs with
  | nil => exact absurd h (by simp [quoted])
  | cons c cs =>
    obtain ⟨q, hq, he⟩ := Option.map_eq_some_iff.1 h
    have hc : c = q.mark := Quote.ofMark?_eq_some_iff.1 hq
    cases hd : cs.dropWhile (· != c) with
    | nil => rw [hd] at he; exact absurd he (by simp)
    | cons d rest =>
      rw [hd] at he
      cases Except.ok.inj he
      have hdc : d = c := by
        have hhead := List.head?_dropWhile_not (· != c) cs
        rw [hd] at hhead
        simpa using hhead
      have hsplit : cs.takeWhile (· != c) ++ d :: rest = cs := by
        rw [← hd]
        exact List.takeWhile_append_dropWhile
      constructor
      · simp only [Lexeme.spelling, Leaf.spelling, String.toList_ofList, ← hc, List.cons_append,
          List.append_assoc, List.nil_append]
        rw [← hdc] at hsplit ⊢
        rw [hsplit]
      · simp [Lexeme.spelling, Leaf.spelling]

theorem lossless_lineComment : Lossless lineComment := by
  intro cs cut h
  unfold lineComment at h
  split at h
  · next cs =>
    cases Except.ok.inj (Option.some.inj h)
    simp only [Lexeme.spelling, Leaf.spelling, String.toList_ofList, List.cons_append]
    rw [List.takeWhile_append_dropWhile]
    exact ⟨rfl, by simp⟩
  · exact absurd h (by simp)

theorem append_of_splitCommentEnd? {cs body rest : List Char}
    (h : splitCommentEnd? cs = some (body, rest)) : body ++ '*' :: '/' :: rest = cs := by
  fun_induction splitCommentEnd? cs generalizing body with
  | case1 => exact absurd h (by simp)
  | case2 cs =>
    cases Option.some.inj h
    rfl
  | case3 c cs _ ih =>
    obtain ⟨⟨b, r⟩, hs, he⟩ := Option.map_eq_some_iff.1 h
    obtain ⟨rfl, rfl⟩ := Prod.mk.inj he
    rw [List.cons_append, ih hs]

theorem lossless_blockComment : Lossless blockComment := by
  intro cs cut h
  unfold blockComment at h
  split at h
  · next cs =>
    have h := Option.some.inj h
    split at h
    · exact absurd h (by simp)
    · next body rest hs =>
      cases Except.ok.inj h
      simp only [Lexeme.spelling, Leaf.spelling, String.toList_ofList, List.cons_append,
        List.append_assoc, List.nil_append]
      rw [append_of_splitCommentEnd? hs]
      exact ⟨rfl, by simp⟩
  · exact absurd h (by simp)

theorem lossless_cast : Lossless cast := by
  intro cs cut h
  unfold cast at h
  split at h
  · cases Except.ok.inj (Option.some.inj h)
    exact ⟨rfl, by simp [Lexeme.spelling, Leaf.spelling]⟩
  · exact absurd h (by simp)

theorem lossless_ordinal : Lossless ordinal := by
  intro cs cut h
  unfold ordinal at h
  split at h
  · next cs =>
    split at h
    · exact absurd h (by simp)
    · have h := Option.some.inj h
      split at h
      · exact absurd h (by simp)
      · next o ho =>
        cases Except.ok.inj h
        simp only [Lexeme.spelling, Leaf.spelling, Ordinal.spelling_of_ofDigits? ho,
          List.cons_append]
        rw [List.takeWhile_append_dropWhile]
        exact ⟨rfl, by simp⟩
  · exact absurd h (by simp)

theorem lossless_named : Lossless named := by
  intro cs cut h
  unfold named at h
  split at h
  · next c cs =>
    split at h
    · cases Except.ok.inj (Option.some.inj h)
      simp only [Lexeme.spelling, Leaf.spelling, String.toList_ofList, List.cons_append]
      rw [List.takeWhile_append_dropWhile]
      exact ⟨rfl, by simp⟩
    · exact absurd h (by simp)
  · exact absurd h (by simp)

theorem lossless_opening : Lossless opening := by
  intro cs cut h
  cases cs with
  | nil => exact absurd h (by simp [opening])
  | cons c cs =>
    obtain ⟨d, hd, he⟩ := Option.map_eq_some_iff.1 h
    cases Except.ok.inj he
    rw [Delimiter.ofOpening?_eq_some_iff.1 hd]
    exact ⟨rfl, by simp [Lexeme.spelling]⟩

theorem lossless_closing : Lossless closing := by
  intro cs cut h
  cases cs with
  | nil => exact absurd h (by simp [closing])
  | cons c cs =>
    obtain ⟨d, hd, he⟩ := Option.map_eq_some_iff.1 h
    cases Except.ok.inj he
    rw [Delimiter.ofClosing?_eq_some_iff.1 hd]
    exact ⟨rfl, by simp [Lexeme.spelling]⟩

theorem lossless_of_mem_all {rule : Rule} (h : rule ∈ all) : Lossless rule := by
  simp only [all, List.mem_cons, List.not_mem_nil, or_false] at h
  rcases h with rfl | rfl | rfl | rfl | rfl | rfl | rfl | rfl | rfl
  · exact lossless_space
  · exact lossless_quoted
  · exact lossless_lineComment
  · exact lossless_blockComment
  · exact lossless_cast
  · exact lossless_ordinal
  · exact lossless_named
  · exact lossless_opening
  · exact lossless_closing

end Rule

/-- What the rules find at the head of a text; `none` where its first character is plain, and at
the end. -/
def structured? (cs : List Char) : Option (Except Fault Cut) :=
  Rule.all.findSome? fun rule => rule cs

theorem lossless_structured? : Rule.Lossless structured? := by
  intro cs cut h
  obtain ⟨rule, hmem, hrule⟩ := List.exists_of_findSome?_eq_some h
  exact Rule.lossless_of_mem_all hmem hrule

theorem spelling_append_rest {cs : List Char} {cut : Cut} (h : structured? cs = some (.ok cut)) :
    cut.lexeme.spelling ++ cut.rest = cs :=
  (lossless_structured? h).1

theorem spelling_ne_nil {cs : List Char} {cut : Cut} (h : structured? cs = some (.ok cut)) :
    cut.lexeme.spelling ≠ [] :=
  (lossless_structured? h).2

theorem rest_length_lt {cs : List Char} {cut : Cut} (h : structured? cs = some (.ok cut)) :
    cut.rest.length < cs.length := by
  have hpos := List.length_pos_iff.2 (spelling_ne_nil h)
  rw [← spelling_append_rest h, List.length_append]
  omega

/-- The longest run of plain characters at the head of a text, and what follows it. -/
def splitPlain : List Char → List Char × List Char
  | [] => ([], [])
  | c :: cs =>
    match structured? (c :: cs) with
    | some _ => ([], c :: cs)
    | none =>
      let (plain, rest) := splitPlain cs
      (c :: plain, rest)

theorem splitPlain_append (cs : List Char) : (splitPlain cs).1 ++ (splitPlain cs).2 = cs := by
  fun_induction splitPlain cs with
  | case1 => rfl
  | case2 => rfl
  | case3 c cs _ plain rest he ih =>
    rw [he] at ih
    rw [List.cons_append, ih]

theorem splitPlain_length (cs : List Char) :
    (splitPlain cs).1.length + (splitPlain cs).2.length = cs.length := by
  rw [← List.length_append, splitPlain_append]

/-- What follows a plain run is nothing, or something structured. -/
theorem structured?_splitPlain_isSome {cs : List Char} (h : (splitPlain cs).2 ≠ []) :
    (structured? (splitPlain cs).2).isSome := by
  fun_induction splitPlain cs with
  | case1 => exact absurd rfl h
  | case2 c cs found hfound => rw [hfound]; rfl
  | case3 c cs _ plain rest he ih => rw [he] at ih; exact ih h

end LosslessSql
