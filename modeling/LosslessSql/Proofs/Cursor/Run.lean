import LosslessSql.Proofs.Boundaries
import LosslessSql.Proofs.Cursor.Scan
import LosslessSql.Proofs.Parse
import LosslessSql.Snippet
import Mathlib.Data.List.ReduceOption

/-!
# No access goes wrong

A stream on texts and a cursor on offsets take the same steps.  The stream keeps the text that is left, and
its position cuts the source before it (`TokenStream.StandsIn`), so every offset that the cursor reaches is
the beginning of a character or the end.

* `readFrom?_skip`: the cursor passes a plain run one character after another.
* `next?_cursor`: **one request**: the cursor of a stream answers what the stream answers.
* `requests?_eq`, `fold?_cursor`: any number of requests, and a run to the end.
* `results_requests`: what has been answered and what is still to come are all answers for the text.
* `no_access_fails`: **no access goes wrong on any source**, and every token spells its leaf.
-/

namespace LosslessSql

open TokenStream

def TokenStream.cursor (t : TokenStream) : Cursor where
  position := t.position
  pending := match t.phase with
    | .holding p => some p.token
    | _ => none
  failed := t.phase = .failed

def TokenStream.Answer.token (a : TokenStream.Answer) : Cursor.Answer :=
  a.map (Except.map Placed.token)

namespace Cursor

/-! ### Reading on -/

section Reading

variable {source : String} {left right : List Char} {start : Nat}

theorem size_append (h : source.toList = left ++ right) :
    size source = byteSize left + byteSize right := by
  rw [size_eq, h, byteSize_append]

theorem readFrom?_plain {mid width : Nat} (hlt : mid < size source) (hscan : scan? source mid = some none)
    (hwidth : width? source mid = some width) :
    readFrom? source start mid = readFrom? source start (mid + width) := by
  rw [readFrom?, if_pos hlt, hscan]
  simp only
  split
  · next hnone => exact absurd (hnone.symm.trans hwidth) (by simp)
  · next w hw =>
    obtain rfl : w = width := Option.some.inj (hw.symm.trans hwidth)
    rfl

/-- A plain run is passed one character after another. -/
theorem readFrom?_skip (h : source.toList = left ++ right) :
    readFrom? source start (byteSize left) =
      readFrom? source start (byteSize left + byteSize (splitPlain right).1) := by
  induction right generalizing left with
  | nil => rfl
  | cons c cs ih =>
    cases hstarts : starts (c :: cs) with
    | true => rw [splitPlain_of_starts hstarts]; rfl
    | false =>
      have hlt : byteSize left < size source := by
        have hpos := c.utf8Size_pos
        rw [size_append h, byteSize_cons]
        omega
      have hscan : scan? source (byteSize left) = some none := by
        rw [scan?_eq h, structured?_eq_none_iff.mpr hstarts]
        rfl
      have hwidth : width? source (byteSize left) = some c.utf8Size := by
        rw [width?, textFrom?_append h]
        rfl
      have hnext : source.toList = (left ++ [c]) ++ cs := by
        rw [h, List.append_assoc, List.singleton_append]
      have hskip := ih hnext
      rw [byteSize_append, byteSize_cons, byteSize_nil, Nat.add_zero] at hskip
      rw [readFrom?_plain hlt hscan hwidth, hskip, splitPlain_cons hstarts, byteSize_cons, Nat.add_assoc]

theorem lt_size_of_structured? {found : Except Fault Cut} (h : source.toList = left ++ right)
    (hfound : structured? right = some found) : byteSize left < size source := by
  cases right with
  | nil => exact absurd (hfound.symm.trans (structured?_eq_none_iff.mpr rfl)) (by simp)
  | cons c cs =>
    have hpos := c.utf8Size_pos
    rw [size_append h, byteSize_cons]
    omega

theorem readFrom?_structured {cut : Cut} (h : source.toList = left ++ right)
    (hcut : structured? right = some (.ok cut)) :
    readFrom? source start (byteSize left) =
      if start < byteSize left then
        some (some (.ok ⟨.text, ⟨start, byteSize left⟩⟩), ⟨byteSize left + cut.lexeme.size,
          some (Placed.token ⟨cut.lexeme, byteSize left⟩), false⟩)
      else
        some (some (.ok (Placed.token ⟨cut.lexeme, byteSize left⟩)),
          ⟨byteSize left + cut.lexeme.size, none, false⟩) := by
  have hpos : byteSize left < byteSize left + cut.lexeme.size :=
    start_lt_stop (spelling_ne_nil hcut) (byteSize left)
  rw [readFrom?, if_pos (lt_size_of_structured? h hcut), scan?_eq h, hcut]
  show choose? _ _ _ _ = _
  rw [choose?, if_neg (Nat.not_le_of_lt hpos)]
  rfl

theorem readFrom?_fault {f : Fault} (h : source.toList = left ++ right)
    (hf : structured? right = some (.error f)) :
    readFrom? source start (byteSize left) =
      if start < byteSize left then
        some (some (.ok ⟨.text, ⟨start, byteSize left⟩⟩), ⟨byteSize left, none, false⟩)
      else
        some (some (.error (f.locate (byteSize left) (byteSize source.toList))),
          ⟨byteSize left, none, true⟩) := by
  rw [readFrom?, if_pos (lt_size_of_structured? h hf), scan?_eq h, hf]
  rfl

theorem readFrom?_end (h : source.toList = left) :
    readFrom? source start (byteSize left) =
      if start < byteSize left then
        some (some (.ok ⟨.text, ⟨start, byteSize left⟩⟩), ⟨byteSize left, none, false⟩)
      else
        some (none, ⟨byteSize left, none, false⟩) := by
  have hend : ¬ byteSize left < size source := by
    rw [size_eq, h]
    exact Nat.lt_irrefl _
  rw [readFrom?, if_neg hend]

end Reading

/-! ### Requests -/

def answerOf (t : TokenStream) : Answer × Cursor :=
  match t.next? with
  | none => (none, t.cursor)
  | some (r, t') => (some (r.map Placed.token), t'.cursor)

variable {source : String} {t : TokenStream}

theorem answerOf_of_some {t' : TokenStream} {r : Except ParseError Placed}
    (h : t.next? = some (r, t')) : answerOf t = (some (r.map Placed.token), t'.cursor) := by
  rw [answerOf, h]

/-- Behind a plain run the text ends, or something can be cut off, or a fault arises. -/
theorem cases_of_plainRun {run rest : List Char} (h : PlainRun run rest) :
    rest = [] ∨ (∃ cut, structured? rest = some (.ok cut)) ∨
      ∃ f, structured? rest = some (.error f) := by
  rcases h.stop with hnil | hstarts
  · exact Or.inl hnil
  · rw [← isSome_structured?, Option.isSome_iff_exists] at hstarts
    obtain ⟨found, hfound⟩ := hstarts
    cases found with
    | ok cut => exact Or.inr (Or.inl ⟨cut, hfound⟩)
    | error f => exact Or.inr (Or.inr ⟨f, hfound⟩)

theorem readFrom?_cursor_nil {before cs : List Char} (h : source.toList = before ++ cs)
    (hrun : PlainRun [] cs) :
    readFrom? source (byteSize before) (byteSize before) =
      some (answerOf ⟨byteSize before, cs, .reading⟩) := by
  have hsplit : splitPlain cs = ([], cs) := splitPlain_of_plainRun hrun
  have hsize : byteSize before + byteSize cs = byteSize source.toList := by
    rw [h, byteSize_append]
  rcases cases_of_plainRun hrun with rfl | ⟨cut, hcut⟩ | ⟨f, hf⟩
  · rw [readFrom?_end (h.trans (List.append_nil _)), if_neg (Nat.lt_irrefl _)]
    rfl
  · have hnext : TokenStream.next? ⟨byteSize before, cs, .reading⟩ =
        some (.ok ⟨cut.lexeme, byteSize before⟩,
          ⟨byteSize before + cut.lexeme.size, cut.rest, .reading⟩) := by
      simp only [TokenStream.next?, TokenStream.read?, hsplit, hcut]
    rw [readFrom?_structured h hcut, answerOf_of_some hnext, if_neg (Nat.lt_irrefl _)]
    rfl
  · have hnext : TokenStream.next? ⟨byteSize before, cs, .reading⟩ =
        some (.error (f.locate (byteSize before) (byteSize source.toList)),
          ⟨byteSize before, cs, .failed⟩) := by
      simp only [TokenStream.next?, TokenStream.read?, hsplit, hf, TokenStream.size, hsize]
    rw [readFrom?_fault h hf, answerOf_of_some hnext, if_neg (Nat.lt_irrefl _)]
    rfl

theorem readFrom?_cursor_cons {before run rest : List Char} {c : Char}
    (h : source.toList = before ++ (c :: run) ++ rest) (hrun : PlainRun (c :: run) rest) :
    readFrom? source (byteSize before) (byteSize (before ++ c :: run)) =
      some (answerOf ⟨byteSize before, c :: run ++ rest, .reading⟩) := by
  have hsplit : splitPlain (c :: run ++ rest) = (c :: run, rest) := splitPlain_of_plainRun hrun
  have hstop : Placed.stop ⟨.leaf (.text (String.ofList (c :: run))), byteSize before⟩ =
      byteSize (before ++ c :: run) := by
    rw [Placed.stop, size_text, byteSize_append]
  have hlt : byteSize before < byteSize (before ++ c :: run) := by
    have hpos := c.utf8Size_pos
    rw [byteSize_append, byteSize_cons]
    omega
  have htext : Placed.token ⟨.leaf (.text (String.ofList (c :: run))), byteSize before⟩ =
      ⟨.text, ⟨byteSize before, byteSize (before ++ c :: run)⟩⟩ := by
    rw [Placed.token, hstop]
    rfl
  rcases cases_of_plainRun hrun with rfl | ⟨cut, hcut⟩ | ⟨f, hf⟩
  · rw [readFrom?_end (h.trans (List.append_nil _)), if_pos hlt]
    have hnext : TokenStream.next? ⟨byteSize before, c :: run ++ [], .reading⟩ =
        some (.ok ⟨.leaf (.text (String.ofList (c :: run))), byteSize before⟩,
          ⟨byteSize (before ++ c :: run), [], .reading⟩) := by
      simp only [TokenStream.next?, TokenStream.read?, hsplit, hstop]
      rfl
    rw [answerOf_of_some hnext, Except.map, htext]
    rfl
  · -- The lexeme behind the run has been read as well: held back here, pending there.
    have hnext : TokenStream.next? ⟨byteSize before, c :: run ++ rest, .reading⟩ =
        some (.ok ⟨.leaf (.text (String.ofList (c :: run))), byteSize before⟩,
          ⟨byteSize (before ++ c :: run) + cut.lexeme.size, cut.rest,
            .holding ⟨cut.lexeme, byteSize (before ++ c :: run)⟩⟩) := by
      simp only [TokenStream.next?, TokenStream.read?, hsplit, hcut, hstop]
      rfl
    rw [readFrom?_structured h hcut, if_pos hlt, answerOf_of_some hnext, Except.map, htext]
    rfl
  · -- The fault is left alone, and both meet it again on the next request.
    have hnext : TokenStream.next? ⟨byteSize before, c :: run ++ rest, .reading⟩ =
        some (.ok ⟨.leaf (.text (String.ofList (c :: run))), byteSize before⟩,
          ⟨byteSize (before ++ c :: run), rest, .reading⟩) := by
      simp only [TokenStream.next?, TokenStream.read?, hsplit, hf, hstop]
    rw [readFrom?_fault h hf, if_pos hlt, answerOf_of_some hnext, Except.map, htext]
    rfl

theorem readFrom?_cursor {before cs : List Char} (h : source.toList = before ++ cs) :
    readFrom? source (byteSize before) (byteSize before) =
      some (answerOf ⟨byteSize before, cs, .reading⟩) := by
  rcases hsplit : splitPlain cs with ⟨run, rest⟩
  obtain ⟨rfl, hrun⟩ := splitPlain_eq_iff.mp hsplit
  cases run with
  | nil => exact readFrom?_cursor_nil h hrun
  | cons c run =>
    rw [readFrom?_skip h, hsplit, ← byteSize_append]
    rw [← List.append_assoc] at h
    exact readFrom?_cursor_cons h hrun

/-- **One request.**  The cursor of a stream answers what the stream answers. -/
theorem next?_cursor (h : t.StandsIn source) : t.cursor.next? source = some (answerOf t) := by
  obtain ⟨start, cs, phase⟩ := t
  cases phase with
  | holding p => rfl
  | failed => rfl
  | reading =>
    obtain ⟨before, hcut⟩ := h.cut
    obtain ⟨happ, hsize⟩ := splitAtByte?_eq_some_iff.mp hcut
    obtain rfl : byteSize before = start := hsize
    exact readFrom?_cursor happ.symm

theorem next?_cursor_of_none (h : t.StandsIn source) (hnext : t.next? = none) :
    t.cursor.next? source = some (none, t.cursor) := by
  rw [next?_cursor h, answerOf, hnext]

theorem next?_cursor_of_some {t' : TokenStream} {r : Except ParseError Placed} (h : t.StandsIn source)
    (hnext : t.next? = some (r, t')) :
    t.cursor.next? source = some (some (r.map Placed.token), t'.cursor) := by
  rw [next?_cursor h, answerOf_of_some hnext]

/-- **Any number of requests.** -/
theorem requests?_eq (source : String) (n : Nat) :
    requests? source n = some ((History.request^[n] (History.ofText source)).answers.map Answer.token,
      (History.request^[n] (History.ofText source)).stream.cursor) := by
  induction n with
  | zero => rfl
  | succ n ih =>
    have hstands := (History.consistent_requests source n).stands
    rw [Function.iterate_succ_apply']
    generalize History.request^[n] (History.ofText source) = h at ih hstands
    rw [requests?, ih, History.request]
    simp only [Option.bind_eq_bind, Option.bind_some, next?_cursor hstands, answerOf]
    cases h.stream.next? with
    | none => simp [Answer.token]
    | some found => simp [Answer.token]

/-! ### Running through a source -/

section Running

variable {α β : Type} {step? : α → Token → Option (Except ParseError α)} {a : α} {c c' : Cursor}

theorem fold?_of_none (h : c.next? source = some (none, c')) :
    fold? source step? a c = some (.ok a) := by
  rw [fold?]
  split <;> next he => cases h.symm.trans he <;> rfl

theorem fold?_of_error {e : ParseError} (h : c.next? source = some (some (.error e), c')) :
    fold? source step? a c = some (.error e) := by
  rw [fold?]
  split <;> next he => cases h.symm.trans he <;> rfl

theorem fold?_of_ok {token : Token} (h : c.next? source = some (some (.ok token), c')) :
    fold? source step? a c = match step? a token with
      | none => none
      | some (.error e) => some (.error e)
      | some (.ok a') => fold? source step? a' c' := by
  rw [fold?]
  split <;> next he => cases h.symm.trans he <;> rfl

/-- **A run to the end.**  A step by tokens that answers what a step by lexemes answers, seen through
`view`, answers the same at the end. -/
theorem fold?_cursor (step : β → Placed → Except ParseError β) (view : β → α) (b : β)
    (hstands : t.StandsIn source) (hresults : ∀ p, .ok p ∈ t.results → p.StandsIn source)
    (hstep : ∀ b p, p.StandsIn source → step? (view b) p.token = some ((step b p).map view)) :
    fold? source step? (view b) t.cursor = some ((t.fold step b).1.map view) := by
  -- The recursion is the stream's; that its lexemes stand in the source passes from one request to the
  -- next, since the results behind an answer are among the results before it.
  fun_induction TokenStream.fold step b t with
  | case1 b t hnext => exact fold?_of_none (next?_cursor_of_none hstands hnext)
  | case2 b t e t' hnext => exact fold?_of_error (next?_cursor_of_some hstands hnext)
  | case3 b t p t' hnext e he =>
    rw [results_of_some hnext] at hresults
    have hp := hresults p List.mem_cons_self
    rw [fold?_of_ok (next?_cursor_of_some hstands hnext), hstep b p hp, he]
    rfl
  | case4 b t p t' hnext b' he ih =>
    rw [results_of_some hnext] at hresults
    have hp := hresults p List.mem_cons_self
    rw [fold?_of_ok (next?_cursor_of_some hstands hnext), hstep b p hp, he]
    exact ih (hstands.step (step_of_next? hnext)) fun q hq => hresults q (List.mem_cons_of_mem _ hq)

end Running

/-! ### The whole of a source -/

theorem standsIn_of_mem_results {p : Placed} (h : .ok p ∈ (ofText source).results) :
    p.StandsIn source := by
  obtain ⟨xs, fault, hlex⟩ := exists_lexes source.toList
  have hp : p ∈ place 0 xs := by
    rw [results_ofText hlex] at h
    simpa using h
  exact Placed.standsIn_of_lexes hlex hp

theorem tokenize?_eq (source : String) :
    tokenize? source = some ((tokenize source).map (List.map Placed.token)) := by
  have hfold : fold? source (fun ts t => some (.ok (t :: ts))) (List.map Placed.token []) start =
      some (((ofText source).fold (fun ps p => .ok (p :: ps)) []).1.map (List.map Placed.token)) :=
    fold?_cursor _ (List.map Placed.token) [] (.ofText source)
      (fun p hp => standsIn_of_mem_results hp) (fun _ _ _ => rfl)
  have htokenize : tokenize source =
      ((ofText source).fold (fun ps p => .ok (p :: ps)) []).1.map List.reverse := rfl
  rw [tokenize?, ← List.map_nil, hfold, htokenize, Option.map_some]
  cases ((ofText source).fold (fun ps p => .ok (p :: ps)) []).1 with
  | error e => rfl
  | ok ps => simp [Except.map]

theorem add?_token {φ : Type} (b : Builder φ) {p : Placed} (h : p.StandsIn source) :
    add? source b p.token = some (b.add p) := by
  rw [add?, Token.leaf?_token h, Builder.add]
  obtain ⟨x, start⟩ := p
  cases x <;> rfl

theorem parse?_eq {φ : Type} (source : String) : parse? (φ := φ) source = some (parse source) := by
  have hfold : fold? source (add? source) (Builder.empty (φ := φ)) start =
      some (((ofText source).fold Builder.add Builder.empty).1.map id) := by
    refine fold?_cursor Builder.add id _ (.ofText source) (fun p hp => standsIn_of_mem_results hp) ?_
    intro b p hp
    rw [Except.map_id]
    exact add?_token b hp
  rw [parse?, hfold, Except.map_id, parse_eq_foldlM, ← fold_eq_foldlM, size_eq, Option.map_some]
  cases ((ofText source).fold Builder.add (Builder.empty (φ := φ))).1 with
  | error e => rfl
  | ok b => rfl

end Cursor

/-! ### Every token that is handed out -/

/-- What has been answered and what is still to come are all answers for the text. -/
theorem results_requests (source : String) (n : Nat) :
    (History.request^[n] (History.ofText source)).answers.reduceOption ++
      (History.request^[n] (History.ofText source)).stream.results = (ofText source).results := by
  induction n with
  | zero => rfl
  | succ n ih =>
    rw [Function.iterate_succ_apply', History.request]
    generalize History.request^[n] (History.ofText source) = h at ih
    rw [← ih]
    cases hnext : h.stream.next? with
    | none => simp [List.reduceOption_append]
    | some found => simp [List.reduceOption_append, results_of_some hnext]

section Spelling

variable {φ : Type} [Fragment φ] {source : String}

/-- A token has a text and a leaf in its source: none exactly for a delimiter, and else one that is
rendered as the text. -/
def Token.SpellsLeaf (φ : Type) [Fragment φ] (t : Token) (source : String) : Prop :=
  ∃ text leaf, t.text? source = some text ∧ t.leaf? source = some leaf ∧
    (leaf = none ↔ t.kind.delimiterChar?.isSome = true) ∧
    ∀ l ∈ leaf, (Node.leaf (φ := φ) l).render = text

theorem spellsLeaf_token {p : Placed} (h : p.StandsIn source) : p.token.SpellsLeaf φ source := by
  refine ⟨_, _, Token.text?_token h, Token.leaf?_token h, ?_, ?_⟩
  · obtain ⟨x, start⟩ := p
    cases x with
    | leaf l => cases l <;> simp [Lexeme.leaf?, Placed.token, Lexeme.tokenKind, Leaf.tokenKind,
        TokenKind.delimiterChar?]
    | opening d => exact ⟨fun _ => rfl, fun _ => rfl⟩
    | closing d => exact ⟨fun _ => rfl, fun _ => rfl⟩
  · intro l hl
    rw [Lexeme.leaf?_eq_some_iff.mp hl]
    rfl

/-- **No access goes wrong on any source.**  However often a cursor is asked, it answers what the stream
answers, and every token that it hands out spells its leaf; and it comes to all tokens, to the tree, or to
the error. -/
theorem no_access_fails (source : String) :
    (∀ n, ∃ answers c, Cursor.requests? source n = some (answers, c) ∧
      answers = (History.request^[n] (History.ofText source)).answers.map Answer.token ∧
      ∀ t, some (.ok t) ∈ answers → t.SpellsLeaf φ source) ∧
    Cursor.tokenize? source = some ((tokenize source).map (List.map Placed.token)) ∧
    Cursor.parse? source = some (parse (φ := φ) source) := by
  refine ⟨?_, Cursor.tokenize?_eq source, Cursor.parse?_eq source⟩
  intro n
  refine ⟨_, _, Cursor.requests?_eq source n, rfl, ?_⟩
  intro t ht
  obtain ⟨a, ha, hat⟩ := List.mem_map.mp ht
  obtain ⟨r, rfl, hr⟩ := Option.map_eq_some_iff.mp hat
  cases r with
  | error e => exact absurd hr (by simp [Except.map])
  | ok p =>
    obtain rfl : p.token = t := Except.ok.inj hr
    have hmem : .ok p ∈ (ofText source).results := by
      rw [← results_requests source n]
      exact List.mem_append_left _ (List.reduceOption_mem_iff.mpr ha)
    exact spellsLeaf_token (Cursor.standsIn_of_mem_results hmem)

/-- A padded parameter behind a letter of two bytes, and before a comment without an end. -/
theorem no_access_fails_padded_ordinal :
    ∃ answers c, Cursor.requests? "é$07/*/" 3 = some (answers, c) ∧
      answers = [some (.ok ⟨.text, ⟨0, 2⟩⟩), some (.ok ⟨.ordinal ⟨7, 1⟩, ⟨2, 5⟩⟩),
        some (.error (.unterminatedComment ⟨5, 8⟩))] ∧
      Token.SpellsLeaf Snippet ⟨.ordinal ⟨7, 1⟩, ⟨2, 5⟩⟩ "é$07/*/" := by
  obtain ⟨answers, c, hn, he, hspells⟩ := (no_access_fails (φ := Snippet) "é$07/*/").1 3
  have hanswers : answers = [some (.ok ⟨.text, ⟨0, 2⟩⟩), some (.ok ⟨.ordinal ⟨7, 1⟩, ⟨2, 5⟩⟩),
      some (.error (.unterminatedComment ⟨5, 8⟩))] := by
    rw [he]
    rfl
  refine ⟨answers, c, hn, hanswers, hspells _ ?_⟩
  rw [hanswers]
  exact List.mem_cons_of_mem _ List.mem_cons_self

end Spelling

end LosslessSql
