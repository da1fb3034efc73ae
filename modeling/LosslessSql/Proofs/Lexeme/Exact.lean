import LosslessSql.Proofs.Lexeme.Grammar

/-!
# The rules find exactly the grammar

`Proofs/Lexeme/Grammar.lean` shows that the rules find nothing but well-formed lexemes and real faults.
This file shows that they find all of them, and joins the two directions:

* `structured?_eq_ok_iff`: a lexeme is cut off exactly where it is spelled out, well formed, and ends.
* `structured?_eq_error_iff`: a fault is found exactly where it arises.
* `structured?_eq_none_iff`: nothing is found exactly where no lexeme starts.
* `splitPlain_eq_iff`: a plain run ends exactly where the next lexeme starts.
-/

namespace LosslessSql

/-! ### Which rule applies

The first character, or the first two, decide the rule: all rules before it in the list fail by
computation. -/

theorem structured?_blank {c : Char} (h : isBlank c = true) (cs : List Char) :
    structured? (c :: cs) = Rule.space (c :: cs) := by
  simp [structured?, Rule.all, Rule.space, h]

theorem structured?_mark (q : Quote) (cs : List Char) :
    structured? (q.mark :: cs) = Rule.quoted (q.mark :: cs) := by
  cases q <;> rfl

theorem structured?_dollar (cs : List Char) :
    structured? ('$' :: cs) = Rule.ordinal ('$' :: cs) := by
  cases h : Rule.ordinal ('$' :: cs) with
  | none =>
    simp only [structured?, Rule.all, List.findSome?, h]
    rfl
  | some r =>
    simp only [structured?, Rule.all, List.findSome?, h]
    rfl

theorem structured?_colon {c : Char} (h : isNameStart c = true) (cs : List Char) :
    structured? (':' :: c :: cs) = Rule.named (':' :: c :: cs) := by
  have hcast : Rule.cast (':' :: c :: cs) = none := by
    unfold Rule.cast
    split
    · next he =>
      obtain ⟨rfl, _⟩ := List.cons.inj (List.cons.inj he).2
      exact absurd h (by decide)
    · rfl
  have hnamed : (Rule.named (':' :: c :: cs)).isSome = true := by
    simp [Rule.named, h]
  obtain ⟨r, hr⟩ := Option.isSome_iff_exists.mp hnamed
  simp only [structured?, Rule.all, List.findSome?, hcast, hr]
  rfl

/-! ### What is spelled out is found -/

theorem structured?_space {w rest : List Char} (hne : w ≠ []) (hw : ∀ c ∈ w, isBlank c = true)
    (hr : Clear isBlank rest) :
    structured? (w ++ rest) = some (.ok ⟨.leaf (.space (String.ofList w)), rest⟩) := by
  have ht := takeWhile_append_clear hw hr
  have hd := dropWhile_append_clear hw hr
  cases w with
  | nil => exact absurd rfl hne
  | cons c w =>
    rw [List.cons_append] at ht hd ⊢
    rw [structured?_blank (hw c (by simp)), Rule.space, ht, hd]

theorem structured?_quoted {q : Quote} {body : List Char} (h : q.mark ∉ body) (rest : List Char) :
    structured? (q.mark :: (body ++ q.mark :: rest)) =
      some (.ok ⟨.leaf (.quoted q (String.ofList body)), rest⟩) := by
  have hw : ∀ c ∈ body, (c != q.mark) = true := by
    intro c hc
    rw [bne_iff_ne]
    rintro rfl
    exact h hc
  have hr : Clear (· != q.mark) (q.mark :: rest) := by simp
  rw [structured?_mark, Rule.quoted, Quote.ofMark?_eq_some_iff.2 rfl, Option.map_some,
    takeWhile_append_clear hw hr, dropWhile_append_clear hw hr]

theorem structured?_openQuote {q : Quote} {body : List Char} (h : q.mark ∉ body) :
    structured? (q.mark :: body) = some (.error (.openQuote q)) := by
  have hnil : body.dropWhile (· != q.mark) = [] := by
    rw [List.dropWhile_eq_nil_iff]
    intro c hc
    rw [bne_iff_ne]
    rintro rfl
    exact h hc
  rw [structured?_mark, Rule.quoted, Quote.ofMark?_eq_some_iff.2 rfl, Option.map_some, hnil]

theorem structured?_lineComment {body rest : List Char} (hw : ∀ c ∈ body, isLineBreak c = false)
    (hr : Clear (fun c => !isLineBreak c) rest) :
    structured? ('-' :: '-' :: (body ++ rest)) =
      some (.ok ⟨.leaf (.lineComment (String.ofList body)), rest⟩) := by
  have hw' : ∀ c ∈ body, (!isLineBreak c) = true := by
    intro c hc
    rw [hw c hc]
    rfl
  show Rule.lineComment ('-' :: '-' :: (body ++ rest)) = _
  rw [Rule.lineComment, takeWhile_append_clear hw' hr, dropWhile_append_clear hw' hr]

theorem structured?_blockComment {body : List Char} (h : ¬ ['*', '/'] <:+: body)
    (rest : List Char) :
    structured? ('/' :: '*' :: (body ++ '*' :: '/' :: rest)) =
      some (.ok ⟨.leaf (.blockComment (String.ofList body)), rest⟩) := by
  show Rule.blockComment ('/' :: '*' :: (body ++ '*' :: '/' :: rest)) = _
  rw [Rule.blockComment, Rule.splitCommentEnd?_append h]

theorem structured?_openComment {body : List Char} (h : ¬ ['*', '/'] <:+: body) :
    structured? ('/' :: '*' :: body) = some (.error .openComment) := by
  show Rule.blockComment ('/' :: '*' :: body) = _
  rw [Rule.blockComment, Rule.splitCommentEnd?_eq_none_iff.mpr h]

theorem structured?_digits {digits rest : List Char} (hne : digits ≠ [])
    (hw : ∀ c ∈ digits, c.isDigit = true) (hr : Clear Char.isDigit rest) :
    structured? ('$' :: (digits ++ rest)) = some ((Ordinal.ofDigits? digits).elim
      (.error (.hugeOrdinal digits.length)) fun o => .ok ⟨.leaf (.ordinal o), rest⟩) := by
  cases digits with
  | nil => exact absurd rfl hne
  | cons c cs =>
    simp only [structured?_dollar, Rule.ordinal, takeWhile_append_clear hw hr,
      dropWhile_append_clear hw hr]
    cases Ordinal.ofDigits? (c :: cs) <;> rfl

theorem structured?_named {name rest : List Char} (hs : name.head?.any isNameStart = true)
    (hw : ∀ c ∈ name, isNamePart c = true) (hr : Clear isNamePart rest) :
    structured? (':' :: (name ++ rest)) =
      some (.ok ⟨.leaf (.named (String.ofList name)), rest⟩) := by
  cases name with
  | nil => exact absurd hs (by simp)
  | cons c cs =>
    have hc : isNameStart c = true := hs
    have hcs : ∀ d ∈ cs, isNamePart d = true := fun d hd => hw d (List.mem_cons_of_mem c hd)
    rw [List.cons_append, structured?_colon hc, Rule.named, if_pos hc,
      takeWhile_append_clear hcs hr, dropWhile_append_clear hcs hr]

/-- **A well-formed lexeme that ends is cut off where it is spelled out.** -/
theorem structured?_spelling {x : Lexeme} {rest : List Char} (ht : x.isText = false)
    (hw : x.WellFormed) (he : x.EndsBefore rest) :
    structured? (x.spelling ++ rest) = some (.ok ⟨x, rest⟩) := by
  match x with
  | .leaf (.text s) => exact absurd ht (by simp [Lexeme.isText])
  | .leaf (.space s) =>
    rw [Lexeme.spelling, Leaf.spelling, structured?_space hw.1 hw.2 he, String.ofList_toList]
  | .leaf (.quoted q body) =>
    rw [Lexeme.spelling, Leaf.spelling, List.cons_append, List.append_assoc, List.singleton_append,
      structured?_quoted hw, String.ofList_toList]
  | .leaf (.lineComment body) =>
    rw [Lexeme.spelling, Leaf.spelling, List.cons_append, List.cons_append,
      structured?_lineComment hw he, String.ofList_toList]
  | .leaf (.blockComment body) =>
    rw [Lexeme.spelling, Leaf.spelling, List.cons_append, List.cons_append, List.append_assoc]
    rw [List.cons_append, List.singleton_append, structured?_blockComment hw, String.ofList_toList]
  | .leaf .cast => rfl
  | .leaf (.ordinal o) =>
    rw [Lexeme.spelling, Leaf.spelling, List.cons_append,
      structured?_digits (Ordinal.spelling_ne_nil_of_nonneg hw)
        (fun c hc => Ordinal.isDigit_of_mem_spelling hw hc) he, Ordinal.ofDigits?_spelling hw,
      Option.elim_some]
  | .leaf (.named name) =>
    rw [Lexeme.spelling, Leaf.spelling, List.cons_append, structured?_named hw.1 hw.2 he,
      String.ofList_toList]
  | .opening d => cases d <;> rfl
  | .closing d => cases d <;> rfl

theorem structured?_of_arises {f : Fault} {cs : List Char} (h : f.Arises cs) :
    structured? cs = some (.error f) := by
  cases f with
  | openQuote q =>
    obtain ⟨body, rfl, hbody⟩ := h
    exact structured?_openQuote hbody
  | openComment =>
    obtain ⟨body, rfl, hbody⟩ := h
    exact structured?_openComment hbody
  | hugeOrdinal n =>
    obtain ⟨digits, rest, rfl, hne, hdigits, hrest, hhuge, rfl⟩ := h
    rw [structured?_digits hne hdigits hrest, (Ordinal.ofDigits?_eq_none_iff hne hdigits).mpr hhuge,
      Option.elim_none]

/-! ### The rules and the grammar agree -/

/-- **A lexeme is cut off exactly where it is spelled out, well formed, and ends.** -/
theorem structured?_eq_ok_iff {cs : List Char} {cut : Cut} :
    structured? cs = some (.ok cut) ↔ cs = cut.lexeme.spelling ++ cut.rest ∧
      cut.lexeme.isText = false ∧ cut.lexeme.WellFormed ∧ cut.lexeme.EndsBefore cut.rest := by
  refine ⟨?_, ?_⟩
  · intro h
    exact ⟨(spelling_append_rest h).symm, sound_structured?.ok h⟩
  · intro hx
    obtain ⟨rfl, ht, hw, he⟩ := hx
    exact structured?_spelling ht hw he

theorem structured?_eq_error_iff {cs : List Char} {f : Fault} :
    structured? cs = some (.error f) ↔ f.Arises cs :=
  ⟨fun h => sound_structured?.error h, structured?_of_arises⟩

theorem isSome_structured?_of_startsAlone {c : Char} (h : startsAlone c = true) (cs : List Char) :
    (structured? (c :: cs)).isSome = true := by
  simp only [startsAlone, Bool.or_eq_true, Option.isSome_iff_exists] at h
  rcases h with ((hb | ⟨q, hq⟩) | ⟨d, hd⟩) | ⟨d, hd⟩
  · simp [structured?_blank hb, Rule.space, hb]
  · rw [Quote.ofMark?_eq_some_iff.mp hq, structured?_mark, Rule.quoted, Option.isSome_map,
      Quote.ofMark?_eq_some_iff.mpr rfl]
    rfl
  · rw [Delimiter.ofOpening?_eq_some_iff.mp hd]
    cases d <;> rfl
  · rw [Delimiter.ofClosing?_eq_some_iff.mp hd]
    cases d <;> rfl

theorem isSome_structured?_of_startsPair {c d : Char} (h : startsPair c d = true) (cs : List Char) :
    (structured? (c :: d :: cs)).isSome = true := by
  simp only [startsPair, Bool.or_eq_true, Bool.and_eq_true, beq_iff_eq] at h
  rcases h with ((⟨rfl, rfl⟩ | ⟨rfl, rfl⟩) | ⟨rfl, rfl | hd⟩) | ⟨rfl, hd⟩
  · rfl
  · rfl
  · rfl
  · simp [structured?_colon hd, Rule.named, hd]
  · simp [structured?_dollar, Rule.ordinal, hd]

/-- **Something structured is found exactly where a lexeme starts.** -/
theorem isSome_structured? (cs : List Char) : (structured? cs).isSome = starts cs := by
  cases cs with
  | nil => rfl
  | cons c cs =>
    rw [Bool.eq_iff_iff]
    refine ⟨fun h => sound_structured?.starts_of_isSome h, fun h => ?_⟩
    rw [starts, Bool.or_eq_true] at h
    rcases h with h | h
    · exact isSome_structured?_of_startsAlone h cs
    · cases cs with
      | nil => exact absurd h (by simp)
      | cons d cs => exact isSome_structured?_of_startsPair h cs

theorem structured?_eq_none_iff {cs : List Char} : structured? cs = none ↔ starts cs = false := by
  rw [← isSome_structured?, Option.isSome_eq_false_iff, Option.isNone_iff_eq_none]

/-! ### Plain runs -/

theorem starts_cons_eq_false_iff {c : Char} {cs : List Char} :
    starts (c :: cs) = false ↔ startsAlone c = false ∧ Clear (startsPair c) cs := by
  rw [starts, Bool.or_eq_false_iff]
  cases cs with
  | nil => simp [clear_nil]
  | cons d cs => simp

theorem splitPlain_of_starts {cs : List Char} (h : starts cs = true) : splitPlain cs = ([], cs) := by
  cases cs with
  | nil => rfl
  | cons c cs =>
    rw [← isSome_structured?, Option.isSome_iff_exists] at h
    obtain ⟨r, hr⟩ := h
    rw [splitPlain, hr]

theorem splitPlain_cons {c : Char} {cs : List Char} (h : starts (c :: cs) = false) :
    splitPlain (c :: cs) = (c :: (splitPlain cs).1, (splitPlain cs).2) := by
  rw [splitPlain, structured?_eq_none_iff.mpr h]

/-- A run of plain characters before `rest`: nothing starts inside it, nothing starts with its last
character, and it cannot be continued. -/
structure PlainRun (run rest : List Char) : Prop where
  alone : ∀ c ∈ run, startsAlone c = false
  chain : run.IsChain fun c d => startsPair c d = false
  join : ∀ c ∈ run.getLast?, Clear (startsPair c) rest
  stop : rest = [] ∨ starts rest = true

theorem plainRun_nil_iff {rest : List Char} : PlainRun [] rest ↔ rest = [] ∨ starts rest = true :=
  ⟨fun h => h.stop, fun h => ⟨by simp, .nil, by simp, h⟩⟩

theorem plainRun_cons_iff {c : Char} {run rest : List Char} :
    PlainRun (c :: run) rest ↔ starts (c :: (run ++ rest)) = false ∧ PlainRun run rest := by
  rw [starts_cons_eq_false_iff]
  cases run with
  | nil =>
    refine ⟨?_, ?_⟩
    · intro h
      obtain ⟨ha, _, hj, hs⟩ := h
      exact ⟨⟨ha c (by simp), hj c (by simp)⟩, plainRun_nil_iff.mpr hs⟩
    · intro h
      obtain ⟨⟨ha, hj⟩, hp⟩ := h
      exact ⟨by simpa using ha, .singleton c, by simpa using hj, hp.stop⟩
  | cons d run =>
    rw [List.cons_append, clear_cons]
    refine ⟨?_, ?_⟩
    · intro h
      obtain ⟨ha, hch, hj, hs⟩ := h
      rw [List.isChain_cons_cons] at hch
      exact ⟨⟨ha c (by simp), hch.1⟩, fun e he => ha e (List.mem_cons_of_mem c he), hch.2,
        by simpa using hj, hs⟩
    · intro h
      obtain ⟨⟨ha, hcd⟩, hp⟩ := h
      refine ⟨?_, List.isChain_cons_cons.mpr ⟨hcd, hp.chain⟩, ?_, hp.stop⟩
      · intro e he
        rcases List.mem_cons.mp he with rfl | he
        · exact ha
        · exact hp.alone e he
      · simpa using hp.join

theorem splitPlain_of_plainRun {run rest : List Char} (h : PlainRun run rest) :
    splitPlain (run ++ rest) = (run, rest) := by
  induction run with
  | nil =>
    rcases h.stop with rfl | hs
    · rfl
    · exact splitPlain_of_starts hs
  | cons c run ih =>
    rw [plainRun_cons_iff] at h
    rw [List.cons_append, splitPlain_cons h.1, ih h.2]

theorem plainRun_splitPlain (cs : List Char) : PlainRun (splitPlain cs).1 (splitPlain cs).2 := by
  induction cs with
  | nil => exact plainRun_nil_iff.mpr (Or.inl rfl)
  | cons c cs ih =>
    cases h : starts (c :: cs) with
    | true =>
      rw [splitPlain_of_starts h]
      exact plainRun_nil_iff.mpr (Or.inr h)
    | false =>
      rw [splitPlain_cons h, plainRun_cons_iff, splitPlain_append]
      exact ⟨h, ih⟩

/-- **A text is split at exactly one place into a plain run and what follows it.** -/
theorem splitPlain_eq_iff {cs run rest : List Char} :
    splitPlain cs = (run, rest) ↔ cs = run ++ rest ∧ PlainRun run rest := by
  refine ⟨?_, ?_⟩
  · intro h
    have happ := splitPlain_append cs
    have hrun := plainRun_splitPlain cs
    rw [h] at happ hrun
    exact ⟨happ.symm, hrun⟩
  · intro hx
    obtain ⟨rfl, h⟩ := hx
    exact splitPlain_of_plainRun h

end LosslessSql
