import LosslessSql.Proofs.Node.Builder
import LosslessSql.Proofs.TokenStream.Shift
import LosslessSql.Proofs.TokenStream.Step
import LosslessSql.Snippet

/-!
# Parsing on after an error

A stream can be parsed again where the last parse stopped.  A delimiter that cannot stand where it does
is taken off the stream, and the next parse begins behind it with nothing open: it sees the rest of the
text as a text of its own, only that its offsets count from the start of the whole.  After every other
result the stream is silent.

* `ends_fold`: how a run through a stream ends.
* `parse_leaves`: where a parse leaves its stream.
* `resumed_of_parseTimes`: **what all later parses give**, from any place in a text on.
* `eq_nil_of_mem_drop_parseTimes`: a text of so many bytes is used up after one parse more.
* `parseTimes_resumed`: both, for the stream of a whole text.
-/

namespace LosslessSql

/-- The offset of a delimiter that cannot stand where it does. -/
def ParseError.delimiterAt? : ParseError → Option Nat
  | .unexpectedClosing _ _ position => some position
  | .nestingTooDeep _ position => some position
  | _ => none

def stoppedAt? {α : Type} : Except ParseError α → Option Nat
  | .ok _ => none
  | .error e => e.delimiterAt?

namespace TokenStream

variable {φ : Type} {source : String} {t t' : TokenStream}

/-- What the parses after one with the result `result` give: the results of the text behind the delimiter
that it stopped at, at their place in `source`, or else nothing. -/
def Resumed (source : String) (result : Except ParseError (List (Node φ)))
    (later : List (Except ParseError (List (Node φ)))) : Prop :=
  match stoppedAt? result with
  | some p => ∃ before rest, splitAtByte? (p + 1) source.toList = some (before, rest) ∧
      later = (parseTimes later.length (ofText (String.ofList rest))).map
        (Except.mapError (ParseError.shift (p + 1)))
  | none => later = List.replicate later.length (.ok [])

/-! ### How a run ends -/

/-- A run through a stream ends when there is nothing more, with an error of the stream, or with one of
the step. -/
inductive Ends (source : String) {α : Type} (step : α → Placed → Except ParseError α) :
    Except ParseError α × TokenStream → Prop
  | silent (a : α) {t : TokenStream} : t.StandsIn source → t.next? = none →
      Ends source step (.ok a, t)
  | fault {e : ParseError} {t t' : TokenStream} : t.StandsIn source →
      t.next? = some (.error e, t') → Ends source step (.error e, t')
  | refused {a : α} {p : Placed} {e : ParseError} {t t' : TokenStream} : t.StandsIn source →
      t.next? = some (.ok p, t') → step a p = .error e → Ends source step (.error e, t')

theorem ends_fold {α : Type} {step : α → Placed → Except ParseError α} (a : α)
    (ht : t.StandsIn source) : Ends source step (t.fold step a) := by
  fun_induction fold step a t with
  | case1 a t hnext => exact .silent a ht hnext
  | case2 a t e t' hnext => exact .fault ht hnext
  | case3 a t p t' hnext e hstep => exact .refused ht hnext hstep
  | case4 a t p t' hnext a' hstep ih => exact ih (ht.step (step_of_next? hnext))

theorem delimiterAt?_locate (f : Fault) (start size : Nat) :
    (f.locate start size).delimiterAt? = none := by
  cases f <;> rfl

theorem stoppedAt?_finish (b : Builder φ) (stop : Nat) : stoppedAt? (b.finish stop) = none := by
  obtain ⟨frames, nodes⟩ := b
  cases frames with
  | nil => rfl
  | cons frame frames => rfl

theorem delimiter_of_add_eq_error {b : Builder φ} {p : Placed} {e : ParseError}
    (h : b.add p = .error e) :
    p.lexeme.isText = false ∧ p.stop = p.start + 1 ∧ e.delimiterAt? = some p.start := by
  obtain ⟨x, start⟩ := p
  rcases Builder.add_eq_error h with ⟨d, hx, _, rfl⟩ | ⟨d, hx, _, rfl⟩ | ⟨d, _, _, hx, _, _, rfl⟩
  all_goals
    dsimp only at hx
    subst hx
    exact ⟨rfl, by cases d <;> rfl, rfl⟩

/-- **Where a parse leaves its stream**: right behind the delimiter that it stopped at, or silent. -/
theorem parse_leaves {r : Except ParseError (List (Node φ))} (ht : t.StandsIn source)
    (h : t.parse = (r, t')) :
    t'.StandsIn source ∧
      match stoppedAt? r with
      | some p => t'.position = p + 1 ∧ t'.phase = .reading
      | none => t'.next? = none := by
  have hends : Ends source Builder.add (t.fold Builder.add (Builder.empty : Builder φ)) :=
    ends_fold Builder.empty ht
  unfold parse at h
  generalize t.fold Builder.add (Builder.empty : Builder φ) = run at hends h
  cases hends with
  | silent b hstands hnext =>
    cases h
    refine ⟨hstands, ?_⟩
    rw [stoppedAt?_finish]
    exact hnext
  | fault hstands hnext =>
    cases h
    have hstep := step_of_next? hnext
    refine ⟨hstands.step hstep, ?_⟩
    cases hstep with
    | fault start hf =>
      rw [stoppedAt?, delimiterAt?_locate]
      rfl
  | refused hstands hnext hadd =>
    cases h
    have hstep := step_of_next? hnext
    obtain ⟨htext, hstop, he⟩ := delimiter_of_add_eq_error hadd
    refine ⟨hstands.step hstep, ?_⟩
    obtain ⟨hposition, hphase⟩ := hstands.after_structured hstep htext
    rw [stoppedAt?, he]
    exact ⟨hposition.trans hstop, hphase⟩

/-! ### The parses after it -/

theorem length_parseTimes (times : Nat) (t : TokenStream) :
    (parseTimes (φ := φ) times t).length = times := by
  induction times generalizing t with
  | zero => rfl
  | succ times ih => rw [parseTimes_succ, List.length_cons, ih]

theorem parseTimes_of_silent (h : t.next? = none) (times : Nat) :
    parseTimes (φ := φ) times t = List.replicate times (.ok []) := by
  have hparse : t.parse (φ := φ) = (.ok [], t) := by
    rw [parse, fold_of_none h]
    rfl
  induction times with
  | zero => rfl
  | succ times ih => rw [parseTimes_succ, hparse, ih, List.replicate_succ]

/-- A stream that reads on from an offset is the stream of the text behind it, moved there. -/
theorem eq_shift_of_reading {k : Nat} (hposition : t.position = k) (hphase : t.phase = .reading) :
    t = (ofText (String.ofList t.rest)).shift k := by
  obtain ⟨position, rest, phase⟩ := t
  dsimp only at hposition hphase
  subst hposition hphase
  simp only [ofText, shift, String.toList_ofList, Nat.zero_add]
  rfl

theorem resumed_parse (ht : t.StandsIn source) (times : Nat) :
    Resumed source (t.parse (φ := φ)).1 (parseTimes times (t.parse (φ := φ)).2) := by
  rcases hparse : t.parse (φ := φ) with ⟨r, t'⟩
  obtain ⟨hstands, hleft⟩ := parse_leaves ht hparse
  unfold Resumed
  rw [length_parseTimes]
  cases hr : stoppedAt? r with
  | none =>
    rw [hr] at hleft
    exact parseTimes_of_silent hleft times
  | some p =>
    rw [hr] at hleft
    obtain ⟨hposition, hphase⟩ := hleft
    obtain ⟨before, hcut⟩ := hstands.cut
    rw [hposition] at hcut
    refine ⟨before, t'.rest, hcut, ?_⟩
    have hshift := parseTimes_shift (φ := φ) (p + 1) times (ofText (String.ofList t'.rest))
    rw [← eq_shift_of_reading hposition hphase] at hshift
    exact hshift

/-- **What all later parses give**, from any place in a text on. -/
theorem resumed_of_parseTimes {times : Nat} {earlier later : List (Except ParseError (List (Node φ)))}
    {result : Except ParseError (List (Node φ))} (ht : t.StandsIn source)
    (h : parseTimes times t = earlier ++ result :: later) : Resumed source result later := by
  induction earlier generalizing times t with
  | nil =>
    cases times with
    | zero => exact absurd h (by simp [parseTimes])
    | succ times =>
      rw [parseTimes_succ, List.nil_append] at h
      obtain ⟨rfl, rfl⟩ := List.cons.inj h
      exact resumed_parse ht times
  | cons first earlier ih =>
    cases times with
    | zero => exact absurd h (by simp [parseTimes])
    | succ times =>
      rw [parseTimes_succ, List.cons_append] at h
      obtain ⟨_, htail⟩ := List.cons.inj h
      exact ih (parse_leaves ht rfl).1 htail

/-- **A text of so many bytes is used up after one parse more.** -/
theorem eq_nil_of_mem_drop_parseTimes {times : Nat} {r : Except ParseError (List (Node φ))}
    (h : r ∈ (parseTimes times (ofText source)).drop (byteSize source.toList + 1)) : r = .ok [] := by
  -- A parse that does not leave the stream silent takes a delimiter off the text, which gets shorter.
  induction hn : byteSize source.toList using Nat.strong_induction_on generalizing source times r with
  | _ n ih =>
    cases times with
    | zero => exact absurd h (by simp [parseTimes])
    | succ times =>
      have hresumed := resumed_parse (φ := φ) (.ofText source) times
      rw [parseTimes_succ, List.drop_succ_cons, hn] at h
      unfold Resumed at hresumed
      rw [length_parseTimes] at hresumed
      split at hresumed
      · next p _ =>
        obtain ⟨before, rest, hcut, hlater⟩ := hresumed
        obtain ⟨happ, hsize⟩ := splitAtByte?_eq_some_iff.mp hcut
        have hrest : p + 1 + byteSize rest = n := by
          rw [← hn, ← happ, byteSize_append, hsize]
        rw [hlater, ← List.map_drop, List.mem_map] at h
        obtain ⟨r', hr', rfl⟩ := h
        have hle : byteSize (String.ofList rest).toList + 1 ≤ n := by
          rw [String.toList_ofList]
          omega
        rw [← Nat.add_sub_of_le hle, ← List.drop_drop] at hr'
        have hlt : byteSize (String.ofList rest).toList < n := hle
        rw [ih _ hlt (List.mem_of_mem_drop hr') rfl]
        rfl
      · rw [hresumed] at h
        exact List.eq_of_mem_replicate (List.mem_of_mem_drop h)

end TokenStream

/-- **Parsing on.**  After a delimiter that cannot stand where it does, all later parses give what the rest
of the text gives on its own, at its place; after any other result they give nothing.  A text is used up
after as many parses as it has bytes, and one more. -/
theorem parseTimes_resumed {φ : Type} (source : String) :
    (∀ (times : Nat) (earlier later : List (Except ParseError (List (Node φ))))
      (result : Except ParseError (List (Node φ))),
      (TokenStream.ofText source).parseTimes times = earlier ++ result :: later →
        TokenStream.Resumed source result later) ∧
    ∀ times, ∀ r ∈ ((TokenStream.ofText source).parseTimes (φ := φ) times).drop
      (byteSize source.toList + 1), r = .ok [] := by
  refine ⟨?_, ?_⟩
  · intro times earlier later result h
    exact TokenStream.resumed_of_parseTimes (.ofText source) h
  · intro times r hr
    exact TokenStream.eq_nil_of_mem_drop_parseTimes hr

/-- Two delimiters that cannot stand where they do, the first of them read ahead behind a plain run, and
then a comment without an end. -/
theorem parseTimes_two_misfits :
    (TokenStream.ofText "a) b] (/*").parseTimes (φ := Snippet) 4 =
        [.error (.unexpectedClosing ')' none 1), .error (.unexpectedClosing ']' none 4),
          .error (.unterminatedComment ⟨7, 9⟩), .ok []] ∧
      TokenStream.Resumed (φ := Snippet) "a) b] (/*" (.error (.unexpectedClosing ')' none 1))
        [.error (.unexpectedClosing ']' none 4), .error (.unterminatedComment ⟨7, 9⟩), .ok []] ∧
      TokenStream.Resumed (φ := Snippet) "a) b] (/*" (.error (.unterminatedComment ⟨7, 9⟩))
        [.ok []] := by
  have htimes : (TokenStream.ofText "a) b] (/*").parseTimes (φ := Snippet) 4 =
      [.error (.unexpectedClosing ')' none 1), .error (.unexpectedClosing ']' none 4),
        .error (.unterminatedComment ⟨7, 9⟩), .ok []] := by
    with_unfolding_all rfl
  exact ⟨htimes, (parseTimes_resumed _).1 4 [] _ _ htimes,
    (parseTimes_resumed _).1 4 [_, _] _ _ htimes⟩

end LosslessSql
