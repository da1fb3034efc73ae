import LosslessSql.Proofs.Node.Stack
import LosslessSql.Proofs.Parse
import LosslessSql.Proofs.Token
import LosslessSql.Proofs.TokenStream.Unbuffered

/-!
# The verdict on a text by its tokens

A parse stops at the first thing that is wrong, in a stream of tokens that may itself end with an error.
`Verdict` says what the result is, in terms of the tokens alone: the tree that lists them, or the error
of the first token that does not fit, or the error of the stream, or a delimiter that is still open.

* `FirstMisfit`: the first token that cannot extend a nested word.
* `firstMisfit_iff`: **it is the first lexeme that a builder does not take.**
* `parse_eq_iff_verdict`: **a text has exactly the result that its tokens say.**
-/

namespace LosslessSql

open Node

/-- The first of the tokens `ts` that cannot extend a nested word of bounded depth is `t`, and `us`
are the tokens before it. -/
structure FirstMisfit (ts us : List Token) (t : Token) : Prop where
  splits : ∃ vs, ts = us ++ t :: vs
  fits : Extendable (us.map Token.kind)
  misfit : ¬ Extendable ((us ++ [t]).map Token.kind)

/-- What the result of parsing must be, for a text with the tokens `ts` and then the error `e`, if
there is one. -/
def Verdict {φ : Type} (source : String) (ts : List Token) (e : Option ParseError) :
    Except ParseError (List (Node φ)) → Prop
  | .ok t => e = none ∧ Nested (ts.map Token.kind) ∧ Shallow maxDepth (ts.map Token.kind) ∧
      FencedAll t ∧ ts.map (fun token => token.lexeme? source) = (lexemesAll t).map some
  | .error (.unexpectedClosing found expected position) =>
    ∃ us d span o, FirstMisfit ts us ⟨.closing d, span⟩ ∧ Innermost us o ∧ found = d.closing ∧
      expected = o.map (fun i => i.1.closing) ∧ expected ≠ some found ∧ position = span.start
  | .error (.nestingTooDeep limit position) =>
    limit = maxDepth ∧ ∃ us d span, FirstMisfit ts us ⟨.opening d, span⟩ ∧
      opens (us.map Token.kind) = closes (us.map Token.kind) + maxDepth ∧ position = span.start
  | .error (.missingClosing expected openedAt position) =>
    e = none ∧ (¬ ∃ us t, FirstMisfit ts us t) ∧
      ∃ d, Innermost ts (some (d, openedAt)) ∧ expected = d.closing ∧
        position = byteSize source.toList
  | .error lexical => e = some lexical ∧ ¬ ∃ us t, FirstMisfit ts us t

def ParseError.isLexical : ParseError → Bool
  | .unterminatedQuote _ _ => true
  | .unterminatedComment _ => true
  | .ordinalOutOfRange _ => true
  | _ => false

theorem Fault.isLexical_locate (f : Fault) (start size : Nat) :
    (f.locate start size).isLexical = true := by
  cases f <;> rfl

theorem Delimiter.closing_inj {c d : Delimiter} (h : c.closing = d.closing) : c = d := by
  have hc := ofClosing?_eq_some_iff.mpr h
  exact Option.some.inj ((ofClosing?_eq_some_iff.mpr rfl).symm.trans hc)

namespace Builder

variable {φ : Type}

/-! ### The first lexeme that does not fit -/

/-- **The first token that does not fit is the first lexeme that a builder does not take.** -/
theorem firstMisfit_iff {ps : List Placed} {us : List Token} {t : Token} :
    FirstMisfit (ps.map Placed.token) us t ↔
      ∃ (before : List Placed) (p : Placed) (behind : List Placed) (b : Builder φ) (err : ParseError),
        ps = before ++ p :: behind ∧ us = before.map Placed.token ∧ t = p.token ∧
          before.foldlM add empty = .ok b ∧ b.add p = .error err := by
  refine ⟨?_, ?_⟩
  · intro h
    obtain ⟨⟨vs, hsplit⟩, hfits, hmisfit⟩ := h
    obtain ⟨before, rs, rfl, rfl, hrs⟩ := List.map_eq_append_iff.mp hsplit
    obtain ⟨p, behind, rfl, rfl, rfl⟩ := List.map_eq_cons_iff.mp hrs
    rw [map_kind_map_token, ← foldlM_isOk_iff (φ := φ)] at hfits
    obtain ⟨b, hb⟩ := hfits
    cases hadd : b.add p with
    | error err => exact ⟨before, p, behind, b, err, rfl, rfl, rfl, hb, hadd⟩
    | ok c =>
      refine absurd ?_ hmisfit
      rw [← List.map_singleton, ← List.map_append, map_kind_map_token, ← foldlM_isOk_iff (φ := φ)]
      refine ⟨c, ?_⟩
      rw [List.foldlM_append, hb]
      show [p].foldlM add b = _
      rw [List.foldlM_cons, hadd]
      rfl
  · intro h
    obtain ⟨before, p, behind, b, err, rfl, rfl, rfl, hb, hadd⟩ := h
    refine ⟨⟨behind.map Placed.token, by rw [List.map_append, List.map_cons]⟩, ?_, ?_⟩
    · rw [map_kind_map_token, ← foldlM_isOk_iff (φ := φ)]
      exact ⟨b, hb⟩
    · rw [← List.map_singleton, ← List.map_append, map_kind_map_token, ← foldlM_isOk_iff (φ := φ)]
      intro h
      obtain ⟨c, hc⟩ := h
      have herror := foldlM_eq_error_iff.mpr ⟨before, p, [], b, rfl, hb, hadd⟩
      exact absurd (herror.symm.trans hc) (by simp)

theorem not_exists_firstMisfit_iff {ps : List Placed} :
    (¬ ∃ us t, FirstMisfit (ps.map Placed.token) us t) ↔
      ∃ b : Builder φ, ps.foldlM add empty = .ok b := by
  cases hrun : ps.foldlM add (empty (φ := φ)) with
  | ok b =>
    refine iff_of_true ?_ ⟨b, rfl⟩
    intro hx
    obtain ⟨us, t, h⟩ := hx
    obtain ⟨before, p, behind, c, err, rfl, _, _, hc, hadd⟩ := (firstMisfit_iff (φ := φ)).mp h
    have herror := foldlM_eq_error_iff.mpr ⟨before, p, behind, c, rfl, hc, hadd⟩
    exact absurd (herror.symm.trans hrun) (by simp)
  | error err =>
    refine iff_of_false ?_ (by simp)
    obtain ⟨before, p, behind, b, rfl, hb, hadd⟩ := foldlM_eq_error_iff.mp hrun
    exact not_not_intro
      ⟨_, _, (firstMisfit_iff (φ := φ)).mpr ⟨before, p, behind, b, err, rfl, rfl, rfl, hb, hadd⟩⟩

/-! ### What goes wrong -/

theorem add_eq_error_innermost {b : Builder φ} {p : Placed} {err : ParseError}
    (h : b.add p = .error err) :
    (∃ d, p.lexeme = .opening d ∧ maxDepth ≤ b.frames.length ∧
      err = .nestingTooDeep maxDepth p.start) ∨
    (∃ d, p.lexeme = .closing d ∧ b.innermost?.map (fun i => i.1.closing) ≠ some d.closing ∧
      err = .unexpectedClosing d.closing (b.innermost?.map fun i => i.1.closing) p.start) := by
  rcases add_eq_error h with ⟨d, hp, hle, rfl⟩ | ⟨d, hp, hb, rfl⟩ | ⟨d, frame, frames, hp, hb, hne, rfl⟩
  · exact Or.inl ⟨d, hp, hle, rfl⟩
  · refine Or.inr ⟨d, hp, ?_, ?_⟩
    · simp [innermost?, hb]
    · rw [innermost?, hb]
      rfl
  · refine Or.inr ⟨d, hp, ?_, ?_⟩
    · rw [innermost?, hb]
      intro he
      exact hne (Delimiter.closing_inj (Option.some.inj he))
    · rw [innermost?, hb]
      rfl

theorem finish_eq_error_iff {b : Builder φ} {stop : Nat} {err : ParseError} :
    b.finish stop = .error err ↔
      ∃ d openedAt, b.innermost? = some (d, openedAt) ∧
        err = .missingClosing d.closing openedAt stop := by
  obtain ⟨frames, nodes⟩ := b
  cases frames with
  | nil => simp [finish, innermost?]
  | cons frame frames =>
    refine ⟨?_, ?_⟩
    · intro h
      exact ⟨frame.delimiter, frame.openedAt, rfl, (Except.error.inj h).symm⟩
    · intro hx
      obtain ⟨d, openedAt, hb, rfl⟩ := hx
      obtain ⟨rfl, rfl⟩ := Prod.mk.inj (Option.some.inj hb)
      rfl

def readAll (ps : List Placed) (e : Option ParseError) (stop : Nat) :
    Except ParseError (List (Node φ)) :=
  ps.foldlM add empty >>= fun b => e.elim (b.finish stop) .error

theorem readAll_eq_error_iff {ps : List Placed} {e : Option ParseError} {stop : Nat}
    {err : ParseError} :
    readAll (φ := φ) ps e stop = .error err ↔ ps.foldlM add (empty (φ := φ)) = .error err ∨
      ∃ b : Builder φ, ps.foldlM add empty = .ok b ∧
        (e = some err ∨ e = none ∧ b.finish stop = .error err) := by
  rw [readAll]
  cases hrun : ps.foldlM add (empty (φ := φ)) with
  | error err' => simp [bind, Except.bind]
  | ok b => cases e <;> simp [bind, Except.bind]

/-! ### Each error by the tokens -/

/-- What is wrong with a token that cannot stand behind the tokens `us`. -/
inductive Blames (us : List Token) : Token → ParseError → Prop
  | opening {d : Delimiter} {span : Span} :
      opens (us.map Token.kind) = closes (us.map Token.kind) + maxDepth →
      Blames us ⟨.opening d, span⟩ (.nestingTooDeep maxDepth span.start)
  | closing {d : Delimiter} {span : Span} {o : Option (Delimiter × Nat)} : Innermost us o →
      o.map (fun i => i.1.closing) ≠ some d.closing →
      Blames us ⟨.closing d, span⟩
        (.unexpectedClosing d.closing (o.map fun i => i.1.closing) span.start)

theorem blames_of_add {before : List Placed} {b : Builder φ} {p : Placed} {err : ParseError}
    (hb : before.foldlM add empty = .ok b) (h : b.add p = .error err) :
    Blames (before.map Placed.token) p.token err := by
  have hholds := holds_of_foldlM hb
  obtain ⟨x, start⟩ := p
  rcases add_eq_error_innermost h with ⟨d, hp, hle, rfl⟩ | ⟨d, hp, hne, rfl⟩
  · obtain rfl : x = .opening d := hp
    have hlength := length_frames_of_holds hholds
    have hmax := hholds.length_le
    refine .opening ?_
    rw [map_kind_map_token]
    omega
  · obtain rfl : x = .closing d := hp
    exact .closing (innermost_of_holds hholds) hne

theorem add_of_blames {before : List Placed} {b : Builder φ} {p : Placed} {err err' : ParseError}
    (hb : before.foldlM add empty = .ok b) (h : b.add p = .error err)
    (hblames : Blames (before.map Placed.token) p.token err') : err = err' := by
  generalize htoken : p.token = t at hblames
  cases hblames with
  | @opening d span _ =>
    have hp : p.lexeme = .opening d := Lexeme.eq_opening_of_tokenKind (congrArg Token.kind htoken)
    have hstart : p.start = span.start := congrArg (fun t => t.span.start) htoken
    rcases add_eq_error_innermost h with ⟨c, _, _, rfl⟩ | ⟨c, hc, _⟩
    · rw [hstart]
    · exact absurd (hp.symm.trans hc) (by simp)
  | @closing d span o ho _ =>
    have hp : p.lexeme = .closing d := Lexeme.eq_closing_of_tokenKind (congrArg Token.kind htoken)
    have hstart : p.start = span.start := congrArg (fun t => t.span.start) htoken
    rcases add_eq_error_innermost h with ⟨c, hc, _⟩ | ⟨c, hc, _, rfl⟩
    · exact absurd (hp.symm.trans hc) (by simp)
    · rw [← Lexeme.closing.inj (hp.symm.trans hc), innermost?_eq hb ho, hstart]

/-- **A run fails with what is wrong with the first token that does not fit.** -/
theorem foldlM_eq_error_iff_blames {ps : List Placed} {err : ParseError} :
    ps.foldlM add (empty (φ := φ)) = .error err ↔
      ∃ us t, FirstMisfit (ps.map Placed.token) us t ∧ Blames us t err := by
  refine ⟨?_, ?_⟩
  · intro hrun
    obtain ⟨before, p, behind, b, rfl, hb, hadd⟩ := foldlM_eq_error_iff.mp hrun
    have hmisfit := (firstMisfit_iff (φ := φ)).mpr
      ⟨before, p, behind, b, err, rfl, rfl, rfl, hb, hadd⟩
    exact ⟨_, _, hmisfit, blames_of_add hb hadd⟩
  · intro h
    obtain ⟨us, t, hmisfit, hblames⟩ := h
    obtain ⟨before, p, behind, b, err', rfl, rfl, rfl, hb, hadd⟩ :=
      (firstMisfit_iff (φ := φ)).mp hmisfit
    obtain rfl := add_of_blames hb hadd hblames
    exact foldlM_eq_error_iff.mpr ⟨before, p, behind, b, rfl, hb, hadd⟩

/-- **The earliest error wins**: the first token that does not fit, else the error behind the tokens,
else a delimiter that is still open. -/
theorem readAll_eq_error_iff_blames {ps : List Placed} {e : Option ParseError} {stop : Nat}
    {err : ParseError} :
    readAll (φ := φ) ps e stop = .error err ↔
      (∃ us t, FirstMisfit (ps.map Placed.token) us t ∧ Blames us t err) ∨
      (¬ ∃ us t, FirstMisfit (ps.map Placed.token) us t) ∧
        (e = some err ∨ e = none ∧ ∃ d openedAt,
          Innermost (ps.map Placed.token) (some (d, openedAt)) ∧
            err = .missingClosing d.closing openedAt stop) := by
  rw [readAll_eq_error_iff, foldlM_eq_error_iff_blames, not_exists_firstMisfit_iff (φ := φ)]
  refine or_congr_right ?_
  refine ⟨?_, ?_⟩
  · intro h
    obtain ⟨b, hb, he | ⟨he, hfinish⟩⟩ := h
    · exact ⟨⟨b, hb⟩, Or.inl he⟩
    · obtain ⟨d, openedAt, hinner, rfl⟩ := finish_eq_error_iff.mp hfinish
      have ho := innermost_of_holds (holds_of_foldlM hb)
      rw [hinner] at ho
      exact ⟨⟨b, hb⟩, Or.inr ⟨he, d, openedAt, ho, rfl⟩⟩
  · intro h
    obtain ⟨⟨b, hb⟩, he | ⟨he, d, openedAt, ho, rfl⟩⟩ := h
    · exact ⟨b, hb, Or.inl he⟩
    · exact ⟨b, hb, Or.inr ⟨he, finish_eq_error_iff.mpr ⟨d, openedAt, innermost?_eq hb ho, rfl⟩⟩⟩

theorem readAll_eq_lexical_iff {ps : List Placed} {e : Option ParseError} {stop : Nat}
    {err : ParseError} (hblames : ∀ us t, ¬ Blames us t err)
    (hopen : ∀ expected openedAt, err ≠ .missingClosing expected openedAt stop) :
    readAll (φ := φ) ps e stop = .error err ↔
      e = some err ∧ ¬ ∃ us t, FirstMisfit (ps.map Placed.token) us t := by
  rw [readAll_eq_error_iff_blames]
  refine ⟨?_, ?_⟩
  · rintro (⟨us, t, _, hb⟩ | ⟨hno, he | ⟨_, d, openedAt, _, he⟩⟩)
    · exact absurd hb (hblames us t)
    · exact ⟨he, hno⟩
    · exact absurd he (hopen _ _)
  · intro h
    obtain ⟨he, hno⟩ := h
    exact Or.inr ⟨hno, Or.inl he⟩

theorem readAll_eq_error_iff_verdict {source : String} {ps : List Placed} {fault : Option Fault}
    {start : Nat} (err : ParseError) :
    readAll (φ := φ) ps (fault.map (Fault.locate start (byteSize source.toList)))
        (byteSize source.toList) = .error err ↔
      Verdict (φ := φ) source (ps.map Placed.token)
        (fault.map (Fault.locate start (byteSize source.toList))) (.error err) := by
  -- The error behind the tokens is never one that a delimiter makes.
  have hlexical : ∀ err, fault.map (Fault.locate start (byteSize source.toList)) = some err →
      err.isLexical = true := by
    intro err he
    obtain ⟨f, _, rfl⟩ := Option.map_eq_some_iff.mp he
    exact f.isLexical_locate start _
  cases err with
  | unexpectedClosing found expected position =>
    rw [readAll_eq_error_iff_blames]
    refine ⟨?_, ?_⟩
    · rintro (⟨us, t, hmisfit, hb⟩ | ⟨_, he | ⟨_, d, openedAt, _, he⟩⟩)
      · cases hb with
        | @closing d span o ho hne => exact ⟨us, d, span, o, hmisfit, ho, rfl, rfl, hne, rfl⟩
      · exact absurd (hlexical _ he) Bool.false_ne_true
      · exact absurd he (by simp)
    · intro h
      obtain ⟨us, d, span, o, hmisfit, ho, rfl, rfl, hne, rfl⟩ := h
      exact Or.inl ⟨us, _, hmisfit, .closing ho hne⟩
  | nestingTooDeep limit position =>
    rw [readAll_eq_error_iff_blames]
    refine ⟨?_, ?_⟩
    · rintro (⟨us, t, hmisfit, hb⟩ | ⟨_, he | ⟨_, d, openedAt, _, he⟩⟩)
      · cases hb with
        | @opening d span hcount => exact ⟨rfl, us, d, span, hmisfit, hcount, rfl⟩
      · exact absurd (hlexical _ he) Bool.false_ne_true
      · exact absurd he (by simp)
    · intro h
      obtain ⟨rfl, us, d, span, hmisfit, hcount, rfl⟩ := h
      exact Or.inl ⟨us, _, hmisfit, .opening hcount⟩
  | missingClosing expected openedAt position =>
    rw [readAll_eq_error_iff_blames]
    refine ⟨?_, ?_⟩
    · rintro (⟨us, t, _, hb⟩ | ⟨hno, he | ⟨hnone, d, at', ho, he⟩⟩)
      · cases hb
      · exact absurd (hlexical _ he) Bool.false_ne_true
      · obtain ⟨rfl, rfl, rfl⟩ := ParseError.missingClosing.inj he
        exact ⟨hnone, hno, d, ho, rfl, rfl⟩
    · intro h
      obtain ⟨hnone, hno, d, ho, rfl, rfl⟩ := h
      exact Or.inr ⟨hno, Or.inr ⟨hnone, d, openedAt, ho, rfl⟩⟩
  | unterminatedQuote quote span =>
    exact readAll_eq_lexical_iff (fun us t hb => by cases hb) (by simp)
  | unterminatedComment span =>
    exact readAll_eq_lexical_iff (fun us t hb => by cases hb) (by simp)
  | ordinalOutOfRange span =>
    exact readAll_eq_lexical_iff (fun us t hb => by cases hb) (by simp)

end Builder

/-! ### The result of a text -/

variable {φ : Type}

theorem map_lexeme?_place {source : String} {xs : List Lexeme} {fault : Option Fault}
    (h : Lexes source.toList xs fault) :
    ((place 0 xs).map Placed.token).map (fun token => token.lexeme? source) = xs.map some := by
  have hlexeme : ∀ p ∈ place 0 xs, p.token.lexeme? source = some p.lexeme := by
    intro p hp
    exact Token.lexeme?_token (Placed.standsIn_of_lexes h hp)
  calc ((place 0 xs).map Placed.token).map (fun token => token.lexeme? source)
      = (place 0 xs).map (fun p => p.token.lexeme? source) := List.map_map
    _ = (place 0 xs).map (fun p => some p.lexeme) := List.map_congr_left hlexeme
    _ = ((place 0 xs).map Placed.lexeme).map some := List.map_map.symm
    _ = xs.map some := by rw [map_lexeme_place]

theorem exists_tree_iff {xs : List Lexeme} :
    (∃ t : List (Node φ), FencedAll t ∧ depthAll t ≤ maxDepth ∧ xs = lexemesAll t) ↔
      Nested (xs.map Lexeme.tokenKind) ∧ Shallow maxDepth (xs.map Lexeme.tokenKind) := by
  refine ⟨?_, ?_⟩
  · intro h
    obtain ⟨t, hf, hd, rfl⟩ := h
    exact ⟨nested_lexemesAll hf, (shallow_lexemesAll_iff hf maxDepth).mpr hd⟩
  · intro h
    obtain ⟨hnested, hshallow⟩ := h
    obtain ⟨t, hf, rfl⟩ := exists_tree_of_nested (φ := φ) hnested rfl
    exact ⟨t, hf, (shallow_lexemesAll_iff hf maxDepth).mp hshallow, rfl⟩

/-- **A text has exactly the result that its tokens say**: a tree exactly if the tokens are nested, not
too deeply, and no error follows them, and then the tree lists the tokens; else the earliest error. -/
theorem parse_eq_iff_verdict (source : String) :
    ∃ (ts : List Token) (e : Option ParseError),
      (TokenStream.ofText source).tokens = ts.map .ok ++ (e.map .error).toList ∧
      (∀ r : Except ParseError (List (Node φ)), parse source = r ↔ Verdict source ts e r) ∧
      ((∃ t : List (Node φ), parse source = .ok t) ↔
        e = none ∧ Nested (ts.map Token.kind) ∧ Shallow maxDepth (ts.map Token.kind)) := by
  obtain ⟨xs, fault, h⟩ := exists_lexes source.toList
  have hword : ((place 0 xs).map Placed.token).map Token.kind = xs.map Lexeme.tokenKind := by
    rw [map_kind_map_token, word_eq (map_lexeme_place 0 xs)]
  refine ⟨(place 0 xs).map Placed.token,
    fault.map (Fault.locate (byteSize (spelled xs)) (byteSize source.toList)), ?_, ?_, ?_⟩
  · rw [TokenStream.tokens, TokenStream.ofText, TokenStream.results_of_lexes h, Nat.zero_add,
      Nat.zero_add, List.map_append, List.map_map, List.map_map]
    cases fault <;> rfl
  · intro r
    cases r with
    | error err =>
      rw [parse_eq h]
      exact Builder.readAll_eq_error_iff_verdict err
    | ok t =>
      rw [parse_eq_ok_iff_of_lexes h, Verdict, map_lexeme?_place h, hword, Option.map_eq_none_iff]
      refine ⟨?_, ?_⟩
      · intro hx
        obtain ⟨hnone, hf, hd, rfl⟩ := hx
        exact ⟨hnone, nested_lexemesAll hf, (shallow_lexemesAll_iff hf maxDepth).mpr hd, hf, rfl⟩
      · intro hx
        obtain ⟨hnone, _, hshallow, hf, hxs⟩ := hx
        obtain rfl := (List.map_inj_right fun _ _ => Option.some.inj).mp hxs
        exact ⟨hnone, hf, (shallow_lexemesAll_iff hf maxDepth).mp hshallow, rfl⟩
  · rw [hword, Option.map_eq_none_iff, ← exists_tree_iff (φ := φ)]
    simp only [parse_eq_ok_iff_of_lexes h, exists_and_left]

end LosslessSql
