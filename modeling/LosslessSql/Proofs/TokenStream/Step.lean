import LosslessSql.TokenStream
import LosslessSql.Proofs.Lexeme.Exact

/-!
# One request

A request has five ways to end with an answer, and two to end without one.  `Step` says once what each of
the five does to the position, the text that is left and the phase, and what follows from it needs no look
at the definition any more.

* `step_of_next?`: every request with an answer is a `Step`.
* `next?_eq_none_iff`: a stream is silent at the end of its text and after an error.
* `StandsIn.step`: **a stream in a text stays in it**: the text left is what follows the position, and
  a lexeme held back ends there.
-/

namespace LosslessSql.TokenStream

/-- A request, its answer and the stream after it.  The lexeme held back is handed out, or a
structured one that is cut off, or a plain run, with or without a structured lexeme to hold back
behind it; or a fault is reported. -/
inductive Step : TokenStream → Except ParseError Placed → TokenStream → Prop
  | held (start : Nat) (rest : List Char) (p : Placed) :
      Step ⟨start, rest, .holding p⟩ (.ok p) ⟨start, rest, .reading⟩
  | structured {x : Lexeme} (start : Nat) (rest : List Char) : x.isText = false → x.spelling ≠ [] →
      Step ⟨start, x.spelling ++ rest, .reading⟩ (.ok ⟨x, start⟩) ⟨start + x.size, rest, .reading⟩
  | ahead {s : String} {x : Lexeme} (start : Nat) (rest : List Char) : s.toList ≠ [] →
      x.isText = false → x.spelling ≠ [] →
      Step ⟨start, s.toList ++ (x.spelling ++ rest), .reading⟩ (.ok ⟨.leaf (.text s), start⟩)
        ⟨start + byteSize s.toList + x.size, rest, .holding ⟨x, start + byteSize s.toList⟩⟩
  | text {s : String} {rest : List Char} (start : Nat) : s.toList ≠ [] →
      (rest = [] ∨ ∃ f : Fault, f.Arises rest) →
      Step ⟨start, s.toList ++ rest, .reading⟩ (.ok ⟨.leaf (.text s), start⟩)
        ⟨start + byteSize s.toList, rest, .reading⟩
  | fault {f : Fault} {rest : List Char} (start : Nat) : f.Arises rest →
      Step ⟨start, rest, .reading⟩ (.error (f.locate start (start + byteSize rest)))
        ⟨start, rest, .failed⟩

variable {t t' : TokenStream} {r : Except ParseError Placed}

theorem step_of_read? {start : Nat} {cs : List Char}
    (h : read? ⟨start, cs, .reading⟩ = some (r, t')) : Step ⟨start, cs, .reading⟩ r t' := by
  have happ := splitPlain_append cs
  have hbehind := @structured?_splitPlain_isSome cs
  unfold read? at h
  split at h
  · next rest hsplit =>
    rw [hsplit] at happ
    subst happ
    split at h
    · exact absurd h (by simp)
    · next f hf =>
      cases h
      exact .fault start (structured?_eq_error_iff.mp hf)
    · next cut hcut =>
      cases h
      obtain ⟨hrest, htext, _⟩ := structured?_eq_ok_iff.mp hcut
      rw [List.nil_append, hrest]
      exact .structured start cut.rest htext (spelling_ne_nil hcut)
  · next c run rest hsplit =>
    rw [hsplit] at happ hbehind
    subst happ
    -- The run is named by its text, as it stands in the lexeme.
    obtain ⟨s, hs⟩ : ∃ s : String, s.toList = c :: run := ⟨_, String.toList_ofList⟩
    have hne : s.toList ≠ [] := by simp [hs]
    rw [← hs, String.ofList_toList] at h
    rw [← hs]
    split at h
    · next cut hcut =>
      cases h
      obtain ⟨hrest, htext, _⟩ := structured?_eq_ok_iff.mp hcut
      rw [hrest]
      exact .ahead start cut.rest hne htext (spelling_ne_nil hcut)
    · next hcut =>
      cases h
      refine .text start hne ?_
      by_cases hrest : rest = []
      · exact Or.inl hrest
      · obtain ⟨found, hfound⟩ := Option.isSome_iff_exists.mp (hbehind hrest)
        cases found with
        | ok cut => exact absurd hfound (hcut cut)
        | error f => exact Or.inr ⟨f, structured?_eq_error_iff.mp hfound⟩

/-- **Every request with an answer is a step.** -/
theorem step_of_next? (h : t.next? = some (r, t')) : Step t r t' := by
  obtain ⟨start, rest, phase⟩ := t
  cases phase with
  | holding p =>
    cases h
    exact .held start rest p
  | failed => exact absurd h (by simp [next?])
  | reading => exact step_of_read? h

theorem read?_eq_none_iff {start : Nat} {cs : List Char} :
    read? ⟨start, cs, .reading⟩ = none ↔ cs = [] := by
  refine ⟨?_, ?_⟩
  · intro h
    by_contra hne
    have happ := splitPlain_append cs
    have hbehind := @structured?_splitPlain_isSome cs
    unfold read? at h
    split at h
    · next rest hsplit =>
      rw [hsplit] at happ hbehind
      subst happ
      obtain ⟨found, hfound⟩ := Option.isSome_iff_exists.mp (hbehind hne)
      rw [hfound] at h
      cases found <;> exact absurd h (by simp)
    · split at h <;> exact absurd h (by simp)
  · rintro rfl
    rfl

/-- **A stream is silent after an error and at the end of its text.** -/
theorem next?_eq_none_iff :
    t.next? = none ↔ t.phase = .failed ∨ t.phase = .reading ∧ t.rest = [] := by
  obtain ⟨start, rest, phase⟩ := t
  cases phase with
  | holding p => simp [next?]
  | failed => simp [next?]
  | reading => simp [next?, read?_eq_none_iff]

/-! ### Where a stream stands -/

/-- A stream has come to its position by reading a text. -/
structure StandsIn (t : TokenStream) (source : String) : Prop where
  cut : ∃ before, splitAtByte? t.position source.toList = some (before, t.rest)
  held : ∀ p, t.phase = .holding p →
    p.lexeme.isText = false ∧ p.start < p.stop ∧ p.stop = t.position

theorem exists_cut_append {n : Nat} {cs w rest : List Char}
    (h : ∃ before, splitAtByte? n cs = some (before, w ++ rest)) :
    ∃ before, splitAtByte? (n + byteSize w) cs = some (before, rest) := by
  obtain ⟨before, h⟩ := h
  obtain ⟨rfl, rfl⟩ := splitAtByte?_eq_some_iff.mp h
  refine ⟨before ++ w, ?_⟩
  rw [← byteSize_append, ← List.append_assoc]
  exact splitAtByte?_append (before ++ w) rest

theorem start_lt_stop {x : Lexeme} (h : x.spelling ≠ []) (start : Nat) :
    Placed.start ⟨x, start⟩ < Placed.stop ⟨x, start⟩ := by
  have hsize : byteSize x.spelling ≠ 0 := by rwa [Ne, byteSize_eq_zero_iff]
  show start < start + byteSize x.spelling
  omega

namespace StandsIn

variable {source : String}

theorem ofText (source : String) : StandsIn (ofText source) source where
  cut := ⟨[], splitAtByte?_append [] source.toList⟩
  held := by
    intro p hp
    exact absurd hp (by simp [TokenStream.ofText])

/-- **A stream in a text stays in it.** -/
theorem step (h : t.StandsIn source) (hstep : Step t r t') : t'.StandsIn source := by
  obtain ⟨hcut, hheld⟩ := h
  cases hstep with
  | held start rest p => exact ⟨hcut, by simp⟩
  | structured start rest htext hne => exact ⟨exists_cut_append hcut, by simp⟩
  | ahead start rest hrun htext hne =>
    refine ⟨exists_cut_append (exists_cut_append hcut), ?_⟩
    rintro p ⟨⟩
    exact ⟨htext, start_lt_stop hne _, rfl⟩
  | text start hrun hbehind => exact ⟨exists_cut_append hcut, by simp⟩
  | fault start hf => exact ⟨hcut, by simp⟩

/-- Behind a structured lexeme that was handed out, held back or not, the stream reads on at once. -/
theorem after_structured {p : Placed} (h : t.StandsIn source) (hstep : Step t (.ok p) t')
    (htext : p.lexeme.isText = false) : t'.position = p.stop ∧ t'.phase = .reading := by
  cases hstep with
  | held start rest =>
    obtain ⟨_, _, hstop⟩ := h.held p rfl
    exact ⟨hstop.symm, rfl⟩
  | structured start rest _ _ => exact ⟨rfl, rfl⟩
  | ahead start rest _ _ _ => exact absurd htext (by simp [Lexeme.isText])
  | text start _ _ => exact absurd htext (by simp [Lexeme.isText])

end StandsIn

end LosslessSql.TokenStream
