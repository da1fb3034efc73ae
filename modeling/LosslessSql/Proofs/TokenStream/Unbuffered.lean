import LosslessSql.Proofs.TokenStream.Results

/-!
# Reading without looking ahead

A stream reads a plain run together with the lexeme behind it and holds that lexeme back.  This file has
the plain way to read a text: at each offset exactly one rule applies, or the character there is plain,
and in the end each run of plain characters is merged into one token.  `Matches` and `Fails` are the
rules, each written out once; nothing in them cuts, holds or rolls back.

* `matches_iff`, `fails_iff`: the rules are the grammar of `Proofs/Lexeme/Grammar.lean`.
* `tokens_plain`: one more plain character in front is joined to the text behind it.
* `tokens_of_cuts`: **the answers of a stream are the pieces of its text, merged.**
* `reads_iff_tokens`: so a stream and the plain way to read agree on every text.
-/

namespace LosslessSql

namespace Unbuffered

/-! ### The rules -/

/-- A rule cuts the token of that kind with the text `w` off `w ++ rest`. -/
inductive Matches : TokenKind → (w rest : List Char) → Prop
  | space {w rest : List Char} : w ≠ [] → (∀ c ∈ w, isBlank c = true) → Clear isBlank rest →
      Matches .space w rest
  | quoted {q : Quote} {body : List Char} (rest : List Char) : q.mark ∉ body →
      Matches (.quoted q) (q.mark :: (body ++ [q.mark])) rest
  | lineComment {body rest : List Char} : (∀ c ∈ body, isLineBreak c = false) →
      (∀ c ∈ rest.head?, isLineBreak c = true) → Matches .lineComment ('-' :: '-' :: body) rest
  | blockComment {body : List Char} (rest : List Char) : ¬ ['*', '/'] <:+: body →
      Matches .blockComment ('/' :: '*' :: (body ++ ['*', '/'])) rest
  | cast (rest : List Char) : Matches .cast [':', ':'] rest
  | ordinal {o : Ordinal} {digits rest : List Char} : digits ≠ [] →
      (∀ c ∈ digits, c.isDigit = true) → Clear Char.isDigit rest →
      o.value.toInt = decimalValue digits → o.spelling = digits →
      Matches (.ordinal o) ('$' :: digits) rest
  | named {name rest : List Char} : name.head?.any isNameStart = true →
      (∀ c ∈ name, isNamePart c = true) → Clear isNamePart rest → Matches .named (':' :: name) rest
  | opening (d : Delimiter) (rest : List Char) : Matches (.opening d) [d.opening] rest
  | closing (d : Delimiter) (rest : List Char) : Matches (.closing d) [d.closing] rest

/-- A rule begins at the offset `start` of a text of `size` bytes and fails. -/
inductive Fails (size start : Nat) : List Char → ParseError → Prop
  | quoted {q : Quote} {body : List Char} : q.mark ∉ body →
      Fails size start (q.mark :: body) (.unterminatedQuote q.mark ⟨start, size⟩)
  | blockComment {body : List Char} : ¬ ['*', '/'] <:+: body →
      Fails size start ('/' :: '*' :: body) (.unterminatedComment ⟨start, size⟩)
  | ordinal {digits rest : List Char} : digits ≠ [] → (∀ c ∈ digits, c.isDigit = true) →
      Clear Char.isDigit rest → Ordinal.maxValue < decimalValue digits →
      Fails size start ('$' :: (digits ++ rest))
        (.ordinalOutOfRange ⟨start, start + byteSize ('$' :: digits)⟩)

/-- What is cut off at one offset: a token, or a single plain character. -/
inductive Piece where
  | token (t : Token)
  | plain (span : Span)

/-- The pieces of the rest of a text of `size` bytes, from the offset `start` on. -/
inductive Cuts (size : Nat) : Nat → List Char → List (Except ParseError Piece) → Prop
  | done (start : Nat) : Cuts size start [] []
  | fail {start : Nat} {cs : List Char} {e : ParseError} : Fails size start cs e →
      Cuts size start cs [.error e]
  | token {start : Nat} {kind : TokenKind} {w rest : List Char}
      {ps : List (Except ParseError Piece)} : Matches kind w rest →
      Cuts size (start + byteSize w) rest ps →
      Cuts size start (w ++ rest) (.ok (.token ⟨kind, ⟨start, start + byteSize w⟩⟩) :: ps)
  | plain {start : Nat} {c : Char} {cs : List Char} {ps : List (Except ParseError Piece)} :
      (∀ kind w rest, c :: cs = w ++ rest → ¬ Matches kind w rest) →
      (∀ e, ¬ Fails size start (c :: cs) e) → Cuts size (start + c.utf8Size) cs ps →
      Cuts size start (c :: cs) (.ok (.plain ⟨start, start + c.utf8Size⟩) :: ps)

/-- Puts a plain stretch in front, into the text behind it if there is one. -/
def joinPlain (span : Span) : List (Except ParseError Token) → List (Except ParseError Token)
  | .ok ⟨.text, behind⟩ :: ts => .ok ⟨.text, ⟨span.start, behind.stop⟩⟩ :: ts
  | ts => .ok ⟨.text, span⟩ :: ts

/-- Merges each run of plain characters into one token. -/
def merge : List (Except ParseError Piece) → List (Except ParseError Token)
  | [] => []
  | .error e :: ps => .error e :: merge ps
  | .ok (.token t) :: ps => .ok t :: merge ps
  | .ok (.plain span) :: ps => joinPlain span (merge ps)

def Reads (source : String) (ts : List (Except ParseError Token)) : Prop :=
  ∃ ps, Cuts (byteSize source.toList) 0 source.toList ps ∧ merge ps = ts

/-! ### The rules are the grammar -/

theorem exists_lexeme_of_matches {kind : TokenKind} {w rest : List Char} (h : Matches kind w rest) :
    ∃ x : Lexeme, x.isText = false ∧ x.WellFormed ∧ x.EndsBefore rest ∧ x.spelling = w ∧
      x.tokenKind = kind := by
  cases h with
  | space hne hw hr =>
    refine ⟨.leaf (.space (String.ofList w)), rfl, ?_, hr, String.toList_ofList, rfl⟩
    simp only [Lexeme.WellFormed, Leaf.WellFormed, String.toList_ofList]
    exact ⟨hne, hw⟩
  | @quoted q body _ hbody =>
    refine ⟨.leaf (.quoted q (String.ofList body)), rfl, ?_, trivial, ?_, rfl⟩
    · simpa only [Lexeme.WellFormed, Leaf.WellFormed, String.toList_ofList] using hbody
    · rw [Lexeme.spelling, Leaf.spelling, String.toList_ofList]
  | @lineComment body _ hbody hrest =>
    refine ⟨.leaf (.lineComment (String.ofList body)), rfl, ?_, ?_, ?_, rfl⟩
    · simpa only [Lexeme.WellFormed, Leaf.WellFormed, String.toList_ofList] using hbody
    · intro c hc
      show (!isLineBreak c) = false
      rw [hrest c hc]
      rfl
    · rw [Lexeme.spelling, Leaf.spelling, String.toList_ofList]
  | @blockComment body _ hbody =>
    refine ⟨.leaf (.blockComment (String.ofList body)), rfl, ?_, trivial, ?_, rfl⟩
    · simpa only [Lexeme.WellFormed, Leaf.WellFormed, String.toList_ofList] using hbody
    · rw [Lexeme.spelling, Leaf.spelling, String.toList_ofList]
  | cast => exact ⟨.leaf .cast, rfl, trivial, trivial, rfl, rfl⟩
  | @ordinal o digits _ hne hdigits hrest hvalue hspelling =>
    refine ⟨.leaf (.ordinal o), rfl, ?_, hrest, ?_, rfl⟩
    · show 0 ≤ o.value.toInt
      omega
    · rw [Lexeme.spelling, Leaf.spelling, hspelling]
  | @named name _ hstart hname hrest =>
    refine ⟨.leaf (.named (String.ofList name)), rfl, ?_, hrest, ?_, rfl⟩
    · simp only [Lexeme.WellFormed, Leaf.WellFormed, String.toList_ofList]
      exact ⟨hstart, hname⟩
    · rw [Lexeme.spelling, Leaf.spelling, String.toList_ofList]
  | opening d => exact ⟨.opening d, rfl, trivial, trivial, rfl, rfl⟩
  | closing d => exact ⟨.closing d, rfl, trivial, trivial, rfl, rfl⟩

theorem matches_spelling {x : Lexeme} {rest : List Char} (ht : x.isText = false)
    (hw : x.WellFormed) (he : x.EndsBefore rest) : Matches x.tokenKind x.spelling rest := by
  match x with
  | .leaf (.text s) => exact absurd ht (by simp [Lexeme.isText])
  | .leaf (.space s) => exact .space hw.1 hw.2 he
  | .leaf (.quoted q body) => exact .quoted rest hw
  | .leaf (.lineComment body) =>
    refine .lineComment hw fun c hc => ?_
    have hbreak := he c hc
    rwa [Bool.not_eq_false'] at hbreak
  | .leaf (.blockComment body) => exact .blockComment rest hw
  | .leaf .cast => exact .cast rest
  | .leaf (.ordinal o) =>
    have hnonneg : 0 ≤ o.value.toInt := hw
    refine .ordinal (Ordinal.spelling_ne_nil_of_nonneg hnonneg)
      (fun c hc => Ordinal.isDigit_of_mem_spelling hnonneg hc) he ?_ rfl
    rw [Ordinal.decimalValue_spelling hnonneg, Int.toNat_of_nonneg hnonneg]
  | .leaf (.named name) => exact .named hw.1 hw.2 he
  | .opening d => exact .opening d rest
  | .closing d => exact .closing d rest

/-- **A rule cuts off exactly the structured lexemes that are well formed and end there.** -/
theorem matches_iff {kind : TokenKind} {w rest : List Char} :
    Matches kind w rest ↔ ∃ x : Lexeme, structured? (w ++ rest) = some (.ok ⟨x, rest⟩) ∧
      x.spelling = w ∧ x.tokenKind = kind := by
  refine ⟨?_, ?_⟩
  · intro h
    obtain ⟨x, ht, hw, he, rfl, rfl⟩ := exists_lexeme_of_matches h
    exact ⟨x, structured?_spelling ht hw he, rfl, rfl⟩
  · intro h'
    obtain ⟨x, hx, rfl, rfl⟩ := h'
    obtain ⟨_, ht, hw, he⟩ := structured?_eq_ok_iff.mp hx
    exact matches_spelling ht hw he

theorem byteSize_of_isDigit {digits : List Char} (h : ∀ c ∈ digits, c.isDigit = true) :
    byteSize digits = digits.length := by
  induction digits with
  | nil => rfl
  | cons c cs ih =>
    rw [List.forall_mem_cons] at h
    have hc : c.utf8Size = 1 := by
      have hle := (isDigit_bounds h.1).2
      rw [Char.utf8Size_eq_one_iff, UInt32.le_iff_toNat_le]
      exact Nat.le_trans hle (by decide)
    rw [byteSize_cons, ih h.2, hc, List.length_cons, Nat.add_comm]

/-- **A rule fails exactly where a fault arises**, with the error that locates it. -/
theorem fails_iff {size start : Nat} {cs : List Char} {e : ParseError} :
    Fails size start cs e ↔
      ∃ f : Fault, structured? cs = some (.error f) ∧ f.locate start size = e := by
  refine ⟨?_, ?_⟩
  · intro h
    cases h with
    | @quoted q body hbody => exact ⟨.openQuote q, structured?_openQuote hbody, rfl⟩
    | blockComment hbody => exact ⟨.openComment, structured?_openComment hbody, rfl⟩
    | @ordinal digits rest hne hdigits hrest hhuge =>
      refine ⟨.hugeOrdinal digits.length, ?_, ?_⟩
      · exact structured?_of_arises ⟨digits, rest, rfl, hne, hdigits, hrest, hhuge, rfl⟩
      · rw [Fault.locate, byteSize_cons, byteSize_of_isDigit hdigits, Nat.add_assoc]
        rfl
  · intro hx
    obtain ⟨f, hf, rfl⟩ := hx
    cases f with
    | openQuote q =>
      obtain ⟨body, rfl, hbody⟩ := structured?_eq_error_iff.mp hf
      exact .quoted hbody
    | openComment =>
      obtain ⟨body, rfl, hbody⟩ := structured?_eq_error_iff.mp hf
      exact .blockComment hbody
    | hugeOrdinal n =>
      obtain ⟨digits, rest, rfl, hne, hdigits, hrest, hhuge, rfl⟩ := structured?_eq_error_iff.mp hf
      have h : Fails size start _ _ := .ordinal hne hdigits hrest hhuge
      rw [byteSize_cons, byteSize_of_isDigit hdigits, ← Nat.add_assoc] at h
      exact h

theorem starts_eq_false_iff {size start : Nat} {cs : List Char} :
    starts cs = false ↔ (∀ kind w rest, cs = w ++ rest → ¬ Matches kind w rest) ∧
      ∀ e, ¬ Fails size start cs e := by
  rw [← structured?_eq_none_iff]
  refine ⟨?_, ?_⟩
  · intro hnone
    refine ⟨?_, ?_⟩
    · rintro kind w rest rfl hm
      obtain ⟨x, hx, _⟩ := matches_iff.mp hm
      exact absurd (hnone.symm.trans hx) (by simp)
    · intro e hf
      obtain ⟨f, hf, _⟩ := fails_iff.mp hf
      exact absurd (hnone.symm.trans hf) (by simp)
  · intro h
    obtain ⟨hm, hf⟩ := h
    cases hr : structured? cs with
    | none => rfl
    | some r =>
      cases r with
      | error f => exact absurd (fails_iff.mpr ⟨f, hr, rfl⟩) (hf _)
      | ok cut =>
        have happ := (structured?_eq_ok_iff.mp hr).1
        rw [happ] at hr
        exact absurd (matches_iff.mpr ⟨cut.lexeme, hr, rfl, rfl⟩) (hm _ _ _ happ)

/-- **Every text has its pieces.** -/
theorem exists_cuts (size start : Nat) (cs : List Char) : ∃ ps, Cuts size start cs ps := by
  induction hn : cs.length using Nat.strong_induction_on generalizing cs start with
  | _ n ih =>
    cases hr : structured? cs with
    | some r =>
      cases r with
      | error f => exact ⟨_, .fail (fails_iff.mpr ⟨f, hr, rfl⟩)⟩
      | ok cut =>
        obtain ⟨x, rest⟩ := cut
        have hlt := rest_length_lt hr
        obtain ⟨ps, hps⟩ := ih rest.length (hn ▸ hlt) (start + byteSize x.spelling) rest rfl
        obtain ⟨rfl, _⟩ := structured?_eq_ok_iff.mp hr
        exact ⟨_, .token (matches_iff.mpr ⟨x, hr, rfl, rfl⟩) hps⟩
    | none =>
      cases cs with
      | nil => exact ⟨[], .done start⟩
      | cons c cs =>
        obtain ⟨hm, hf⟩ := starts_eq_false_iff.mp (structured?_eq_none_iff.mp hr)
        rw [List.length_cons] at hn
        obtain ⟨ps, hps⟩ := ih cs.length (by omega) (start + c.utf8Size) cs rfl
        exact ⟨_, .plain hm hf hps⟩

end Unbuffered

/-! ### The answers of a stream -/

namespace TokenStream

open Unbuffered

def tokens (t : TokenStream) : List (Except ParseError Token) :=
  t.results.map (Except.map Placed.token)

theorem token_text (run : List Char) (start : Nat) :
    Placed.token ⟨.leaf (.text (String.ofList run)), start⟩ =
      ⟨.text, ⟨start, start + byteSize run⟩⟩ := by
  rw [Placed.token, Placed.stop, size_text]
  rfl

theorem tokens_text {c : Char} {cs run rest : List Char} (h : splitPlain cs = (c :: run, rest))
    (start : Nat) :
    tokens ⟨start, cs, .reading⟩ = .ok ⟨.text, ⟨start, start + byteSize (c :: run)⟩⟩ ::
      tokens ⟨start + byteSize (c :: run), rest, .reading⟩ := by
  rw [tokens, results_text h, List.map_cons, Except.map, token_text]
  rfl

theorem joinPlain_cons {t : Token} (h : t.kind ≠ .text) (span : Span)
    (ts : List (Except ParseError Token)) :
    joinPlain span (.ok t :: ts) = .ok ⟨.text, span⟩ :: .ok t :: ts := by
  obtain ⟨kind, stretch⟩ := t
  cases kind with
  | text => exact absurd rfl h
  | _ => rfl

theorem joinPlain_tokens {cs : List Char} (h : cs = [] ∨ starts cs = true) (span : Span)
    (start : Nat) :
    joinPlain span (tokens ⟨start, cs, .reading⟩) =
      .ok ⟨.text, span⟩ :: tokens ⟨start, cs, .reading⟩ := by
  rcases h with rfl | h
  · rw [tokens, results_nil]
    rfl
  · rw [← isSome_structured?, Option.isSome_iff_exists] at h
    obtain ⟨r, hr⟩ := h
    cases r with
    | error f =>
      rw [tokens, results_error hr]
      rfl
    | ok cut =>
      have hkind : (Placed.token ⟨cut.lexeme, start⟩).kind ≠ .text :=
        Lexeme.tokenKind_ne_text (structured?_eq_ok_iff.mp hr).2.1
      rw [tokens, results_structured hr, List.map_cons, Except.map]
      exact joinPlain_cons hkind span _

/-- **One more plain character.**  The stream that begins one plain character earlier answers the same,
with that character joined to the text that came first, or in front as a text of its own. -/
theorem tokens_plain {c : Char} {cs : List Char} (h : starts (c :: cs) = false) (start : Nat) :
    tokens ⟨start, c :: cs, .reading⟩ =
      joinPlain ⟨start, start + c.utf8Size⟩ (tokens ⟨start + c.utf8Size, cs, .reading⟩) := by
  have hsplit := splitPlain_cons h
  rcases hcs : splitPlain cs with ⟨run, rest⟩
  rw [hcs] at hsplit
  obtain ⟨rfl, hrun⟩ := splitPlain_eq_iff.mp hcs
  rw [tokens_text hsplit, byteSize_cons]
  cases run with
  | nil => rw [List.nil_append, joinPlain_tokens hrun.stop, byteSize_nil, Nat.add_zero]
  | cons d run =>
    rw [tokens_text hcs, Nat.add_assoc]
    rfl

/-- **The answers of a stream are the pieces of its text, merged.** -/
theorem tokens_of_cuts {size start : Nat} {cs : List Char} {ps : List (Except ParseError Piece)}
    (h : Cuts size start cs ps) (hsize : size = start + byteSize cs) :
    tokens ⟨start, cs, .reading⟩ = merge ps := by
  induction h with
  | done start =>
    rw [tokens, results_nil]
    rfl
  | fail h =>
    obtain ⟨f, hf, rfl⟩ := fails_iff.mp h
    rw [tokens, results_error hf, hsize]
    rfl
  | @token start kind w rest ps hm _ ih =>
    obtain ⟨x, hx, rfl, rfl⟩ := matches_iff.mp hm
    rw [byteSize_append, ← Nat.add_assoc] at hsize
    rw [tokens, results_structured hx, List.map_cons, merge, ← ih hsize]
    rfl
  | @plain start c cs ps hm hf _ ih =>
    have hstarts : starts (c :: cs) = false := starts_eq_false_iff.mpr ⟨hm, hf⟩
    rw [byteSize_cons, ← Nat.add_assoc] at hsize
    rw [tokens_plain hstarts, merge, ih hsize]

end TokenStream

/-! ### A stream and the plain way to read -/

/-- **A stream that looks ahead answers what the plain way to read finds**, on every text: tokens, and
then at most one error.  All tokens at once are these tokens, or the error if there is one. -/
theorem reads_iff_tokens (source : String) :
    (∀ ts, Unbuffered.Reads source ts ↔ (TokenStream.ofText source).tokens = ts) ∧
      ∃ (ts : List Token) (e : Option ParseError),
        (TokenStream.ofText source).tokens = ts.map .ok ++ (e.map .error).toList ∧
          (tokenize source).map (List.map Placed.token) = e.elim (.ok ts) .error := by
  refine ⟨fun ts => ?_, ?_⟩
  · have hsize : byteSize source.toList = 0 + byteSize source.toList := (Nat.zero_add _).symm
    refine ⟨?_, ?_⟩
    · intro hx
      obtain ⟨ps, hcuts, rfl⟩ := hx
      exact TokenStream.tokens_of_cuts hcuts hsize
    · rintro rfl
      obtain ⟨ps, hcuts⟩ := Unbuffered.exists_cuts (byteSize source.toList) 0 source.toList
      exact ⟨ps, hcuts, (TokenStream.tokens_of_cuts hcuts hsize).symm⟩
  · obtain ⟨ps, e, h⟩ := TokenStream.exists_results_ofText source
    refine ⟨ps.map Placed.token, e, ?_, ?_⟩
    · rw [TokenStream.tokens, h, List.map_append, List.map_map, List.map_map]
      cases e <;> rfl
    · rw [tokenize, TokenStream.tokenize_of_results h]
      cases e <;> rfl

end LosslessSql
