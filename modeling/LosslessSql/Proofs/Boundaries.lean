import LosslessSql.Proofs.Lexeme.Joining
import LosslessSql.Proofs.Token
import LosslessSql.Proofs.TokenStream.History
import LosslessSql.Proofs.TokenStream.Shift
import LosslessSql.Proofs.TokenStream.Unbuffered

/-!
# Cutting a text where a token ends

The tokens of a text do not depend on one another across a boundary: what stands before the boundary has
the tokens before it, and what stands behind it has the tokens behind it, moved to the front.  The same
holds where the tokens end with an error, so what stands before an error can be read on its own.

* `results_ofText`, `tokenize_eq`: all answers for a text, by its lexemes.
* `tokenize_take`, `tokenize_drop`: the two parts of a text that is cut behind its first tokens.
* `tokenize_split`: **a text is cut at any boundary of its tokens.**
* `truthful_of_fails`: a rule that fails says what is wrong with the text where it starts.
* `tokenize_error_truthful`: **an error is true of the text, and only the tokens before it come first.**
-/

namespace LosslessSql

open TokenStream

def Token.shift (k : Nat) (t : Token) : Token :=
  ⟨t.kind, t.span.shift k⟩

/-- The byte offset where the first `i` of some tokens end. -/
def boundary (ts : List Token) (i : Nat) : Nat :=
  ((ts.take i).getLast?.map fun t => t.span.stop).getD 0

/-- What an error says about the text `right` of a source from the start of the error on. -/
def ParseError.Truthful (source : String) (right : List Char) : ParseError → Prop
  | .unterminatedQuote mark span =>
    (∃ q : Quote, mark = q.mark) ∧ (∃ body, right = mark :: body ∧ mark ∉ body) ∧
      span.stop = byteSize source.toList
  | .unterminatedComment span =>
    (∃ body, right = '/' :: '*' :: body ∧ ¬ ['*', '/'] <:+: body) ∧
      span.stop = byteSize source.toList
  | .ordinalOutOfRange span => ∃ digits left rest, digits ≠ [] ∧ (∀ c ∈ digits, c.isDigit = true) ∧
      span.cut? source.toList = some ('$' :: digits) ∧
      splitAtByte? span.stop source.toList = some (left, rest) ∧ Clear Char.isDigit rest ∧
      Ordinal.maxValue < decimalValue digits
  | _ => False

variable {source : String} {xs : List Lexeme} {fault : Option Fault}

/-! ### The answers for a text -/

def errorBehind (source : String) (xs : List Lexeme) (fault : Option Fault) : Option ParseError :=
  fault.map fun f => f.locate (byteSize (spelled xs)) (byteSize source.toList)

theorem results_ofText (h : Lexes source.toList xs fault) :
    (ofText source).results =
      (place 0 xs).map .ok ++ ((errorBehind source xs fault).map .error).toList := by
  have hresults := results_of_lexes h 0
  rw [Nat.zero_add, Nat.zero_add] at hresults
  rw [ofText, hresults, errorBehind, Option.map_map]
  rfl

theorem tokenize_eq (h : Lexes source.toList xs fault) :
    tokenize source = (errorBehind source xs fault).elim (.ok (place 0 xs)) .error :=
  tokenize_of_results (results_ofText h)

theorem lexes_of_tokenize {ps : List Placed} (h : tokenize source = .ok ps) :
    ∃ xs, Lexes source.toList xs none ∧ ps = place 0 xs := by
  obtain ⟨xs, fault, hlex⟩ := exists_lexes source.toList
  rw [tokenize_eq hlex] at h
  cases fault with
  | none => exact ⟨xs, hlex, (Except.ok.inj h).symm⟩
  | some f => exact absurd h (by simp [errorBehind])

/-! ### Both sides of a boundary -/

theorem take_place (start : Nat) (xs : List Lexeme) (i : Nat) :
    (place start xs).take i = place start (xs.take i) := by
  induction xs generalizing start i with
  | nil => simp [place]
  | cons x xs ih =>
    cases i with
    | zero => rfl
    | succ i => rw [place, List.take_succ_cons, List.take_succ_cons, place, ih]

theorem drop_place (start : Nat) (xs : List Lexeme) (i : Nat) :
    (place start xs).drop i = place (start + byteSize (spelled (xs.take i))) (xs.drop i) := by
  induction xs generalizing start i with
  | nil => simp [place]
  | cons x xs ih =>
    cases i with
    | zero => rfl
    | succ i =>
      rw [place, List.drop_succ_cons, List.take_succ_cons, List.drop_succ_cons, ih, spelled_cons,
        byteSize_append, ← Nat.add_assoc]
      rfl

theorem place_add (start k : Nat) (xs : List Lexeme) :
    place (start + k) xs = (place start xs).map (Placed.shift k) := by
  induction xs generalizing start with
  | nil => rfl
  | cons x xs ih =>
    rw [place, place, List.map_cons, Nat.add_right_comm, ih]
    rfl

/-- The last of some placed lexemes ends where all that they spell ends. -/
theorem getLast?_place (start : Nat) (xs : List Lexeme) :
    ((place start xs).getLast?.map Placed.stop).getD start = start + byteSize (spelled xs) := by
  rcases List.eq_nil_or_concat xs with rfl | ⟨ys, y, rfl⟩
  · rfl
  · have hlast : place (start + byteSize (spelled ys)) [y] =
        [⟨y, start + byteSize (spelled ys)⟩] := rfl
    rw [List.concat_eq_append, place_append, hlast, List.getLast?_concat, spelled_append,
      spelled_cons, spelled_nil, List.append_nil, byteSize_append, ← Nat.add_assoc]
    rfl

theorem boundary_place (xs : List Lexeme) (i : Nat) :
    boundary ((place 0 xs).map Placed.token) i = byteSize (spelled (xs.take i)) := by
  have hlast := getLast?_place 0 (xs.take i)
  rw [Nat.zero_add] at hlast
  rw [boundary, ← List.map_take, take_place, List.getLast?_map, Option.map_map, ← hlast]
  rfl

/-- **What stands before a boundary has the tokens before it.** -/
theorem tokenize_take (h : Lexes source.toList xs fault) (i : Nat) :
    tokenize (String.ofList (spelled (xs.take i))) = .ok ((place 0 xs).take i) := by
  rw [← List.take_append_drop i xs] at h
  have hleft : Lexes (String.ofList (spelled (xs.take i))).toList (xs.take i) none := by
    rw [String.toList_ofList]
    exact lexes_spelled_of_lexes h
  rw [tokenize_eq hleft, take_place]
  rfl

/-- **What stands behind a boundary has the tokens behind it**, moved to the front. -/
theorem tokenize_drop (h : Lexes source.toList xs none) (i : Nat) :
    ∃ qs, tokenize (String.ofList (spelled (xs.drop i))) = .ok qs ∧
      qs.map (Placed.shift (byteSize (spelled (xs.take i)))) = (place 0 xs).drop i := by
  rw [← List.take_append_drop i xs] at h
  obtain ⟨rest, _, hrest⟩ := lexes_of_append h
  have hright : Lexes (String.ofList (spelled (xs.drop i))).toList (xs.drop i) none := by
    rw [String.toList_ofList, spelled_of_lexes hrest]
    exact hrest
  refine ⟨place 0 (xs.drop i), tokenize_eq hright, ?_⟩
  rw [drop_place, place_add]

theorem token_shift (k : Nat) (p : Placed) : (p.shift k).token = p.token.shift k := by
  obtain ⟨x, start⟩ := p
  show Token.mk x.tokenKind ⟨start + k, start + k + x.size⟩ =
    ⟨x.tokenKind, ⟨start + k, start + x.size + k⟩⟩
  rw [Nat.add_right_comm]

/-- **A text is cut at any boundary of its tokens.**  The part before the boundary has the first tokens,
and the part behind it has the others, with both ends of their spans moved back by the size of the
first part. -/
theorem tokenize_split {ts : List Token}
    (h : (tokenize source).map (List.map Placed.token) = .ok ts) (i : Nat) :
    ∃ left right us, splitAtByte? (boundary ts i) source.toList = some (left, right) ∧
      (tokenize (String.ofList left)).map (List.map Placed.token) = .ok (ts.take i) ∧
      (tokenize (String.ofList right)).map (List.map Placed.token) = .ok us ∧
      us.map (Token.shift (boundary ts i)) = ts.drop i := by
  cases htokens : tokenize source with
  | error e => exact absurd (htokens ▸ h) (by simp [Except.map])
  | ok ps =>
    rw [htokens] at h
    obtain rfl : ps.map Placed.token = ts := Except.ok.inj h
    obtain ⟨xs, hlex, rfl⟩ := lexes_of_tokenize htokens
    obtain ⟨qs, hqs, hshift⟩ := tokenize_drop hlex i
    have hsource : source.toList = spelled (xs.take i) ++ spelled (xs.drop i) := by
      rw [← spelled_append, List.take_append_drop, spelled_of_lexes hlex]
    rw [boundary_place]
    refine ⟨spelled (xs.take i), spelled (xs.drop i), qs.map Placed.token, ?_, ?_, ?_, ?_⟩
    · rw [hsource]
      exact splitAtByte?_append _ _
    · rw [tokenize_take hlex i, ← List.map_take]
      rfl
    · rw [hqs]
      rfl
    · rw [← List.map_drop, ← hshift, List.map_map, List.map_map]
      exact List.map_congr_left fun p _ => (token_shift _ p).symm

/-- A cut behind a line comment: the line break that ended it stands in the other part. -/
theorem tokenize_split_line_comment :
    (tokenize "é:1--b\n$07").map (List.map Placed.token) = .ok [⟨.text, ⟨0, 4⟩⟩,
      ⟨.lineComment, ⟨4, 7⟩⟩, ⟨.space, ⟨7, 8⟩⟩, ⟨.ordinal ⟨7, 1⟩, ⟨8, 11⟩⟩] ∧
    ∃ left right us, splitAtByte? 7 "é:1--b\n$07".toList = some (left, right) ∧
      (tokenize (String.ofList left)).map (List.map Placed.token) =
        .ok [⟨.text, ⟨0, 4⟩⟩, ⟨.lineComment, ⟨4, 7⟩⟩] ∧
      (tokenize (String.ofList right)).map (List.map Placed.token) = .ok us ∧
      us.map (Token.shift 7) = [⟨.space, ⟨7, 8⟩⟩, ⟨.ordinal ⟨7, 1⟩, ⟨8, 11⟩⟩] := by
  have htokens : (tokenize "é:1--b\n$07").map (List.map Placed.token) = .ok [⟨.text, ⟨0, 4⟩⟩,
      ⟨.lineComment, ⟨4, 7⟩⟩, ⟨.space, ⟨7, 8⟩⟩, ⟨.ordinal ⟨7, 1⟩, ⟨8, 11⟩⟩] := by
    with_unfolding_all rfl
  exact ⟨htokens, tokenize_split htokens 2⟩

/-! ### Errors -/

/-- **A rule that fails says what is wrong.** -/
theorem truthful_of_fails {left right : List Char} {e : ParseError}
    (hsource : source.toList = left ++ right)
    (h : Unbuffered.Fails (byteSize source.toList) (byteSize left) right e) :
    e.Truthful source right := by
  cases h with
  | @quoted q body hbody => exact ⟨⟨q, rfl⟩, ⟨body, rfl, hbody⟩, rfl⟩
  | @blockComment body hbody => exact ⟨⟨body, rfl, hbody⟩, rfl⟩
  | @ordinal digits rest hne hdigits hrest hhuge =>
    rw [← List.cons_append] at hsource
    refine ⟨digits, left ++ '$' :: digits, rest, hne, hdigits, ?_, ?_, hrest, hhuge⟩
    · rw [hsource]
      exact Span.cut?_append left ('$' :: digits) rest
    · rw [hsource, ← byteSize_append, ← List.append_assoc]
      exact splitAtByte?_append (left ++ '$' :: digits) rest

/-- **An error is true of the text, and the tokens that come before it are those of the text before
it.** -/
theorem tokenize_error_truthful {e : ParseError} (h : tokenize source = .error e) :
    ∃ (ps : List Placed) (span : Span) (left right : List Char),
      (ofText source).results = ps.map .ok ++ [.error e] ∧ e.span? = some span ∧
      splitAtByte? span.start source.toList = some (left, right) ∧
      tokenize (String.ofList left) = .ok ps ∧ e.Truthful source right := by
  obtain ⟨xs, fault, hlex⟩ := exists_lexes source.toList
  have hresults := results_ofText hlex
  rw [tokenize_eq hlex] at h
  cases fault with
  | none => exact absurd h (by simp [errorBehind])
  | some f =>
    obtain rfl : f.locate (byteSize (spelled xs)) (byteSize source.toList) = e := Except.error.inj h
    obtain ⟨right, hsource, hright⟩ := append_of_lexes hlex
    have hfails : Unbuffered.Fails (byteSize source.toList) (byteSize (spelled xs)) right
        (f.locate (byteSize (spelled xs)) (byteSize source.toList)) := by
      cases hright with
      | fault hf => exact Unbuffered.fails_iff.mpr ⟨f, structured?_of_arises hf, rfl⟩
    have hleft := tokenize_take hlex xs.length
    rw [List.take_length, take_place, List.take_length] at hleft
    obtain ⟨stop, hspan⟩ := f.span?_locate (byteSize (spelled xs)) (byteSize source.toList)
    refine ⟨place 0 xs, ⟨byteSize (spelled xs), stop⟩, spelled xs, right, hresults, hspan, ?_, hleft,
      truthful_of_fails hsource hfails⟩
    rw [hsource]
    exact splitAtByte?_append (spelled xs) right

/-- The star that begins a comment does not end it. -/
theorem tokenize_error_truthful_star_slash :
    tokenize "é $1(/*/" = .error (.unterminatedComment ⟨6, 9⟩) ∧
    ∃ (ps : List Placed) (span : Span) (left right : List Char),
      (ofText "é $1(/*/").results = ps.map .ok ++ [.error (.unterminatedComment ⟨6, 9⟩)] ∧
      (ParseError.unterminatedComment ⟨6, 9⟩).span? = some span ∧
      splitAtByte? span.start "é $1(/*/".toList = some (left, right) ∧
      tokenize (String.ofList left) = .ok ps ∧
      (ParseError.unterminatedComment ⟨6, 9⟩).Truthful "é $1(/*/" right := by
  have htokens : tokenize "é $1(/*/" = .error (.unterminatedComment ⟨6, 9⟩) := by
    with_unfolding_all rfl
  exact ⟨htokens, tokenize_error_truthful htokens⟩

end LosslessSql
