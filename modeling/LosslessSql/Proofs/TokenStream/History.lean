import LosslessSql.Proofs.TokenStream.Step
import Mathlib.Logic.Function.Iterate

/-!
# Asking a stream again and again

A `History` is a stream together with all that it has answered so far, and `History.request` asks once
more.  The lexemes handed out lie side by side from the start of the text on.  They end at the position,
or, while a lexeme is held back, where that lexeme starts (`TokenStream.frontier`).

* `Consistent.request`: **what one request keeps**, whichever way it ends.
* `consistent_requests`: what every number of requests keeps.
* `requests_of_silent`: after an error, and after an answer of `none`, nothing changes any more.
* `orderly_requests`: all that a stream promises, in its own words (`Orderly`).
-/

namespace LosslessSql

def ParseError.span? : ParseError → Option Span
  | .unterminatedQuote _ span => some span
  | .unterminatedComment span => some span
  | .ordinalOutOfRange span => some span
  | _ => none

theorem Fault.span?_locate (f : Fault) (start size : Nat) :
    ∃ stop, (f.locate start size).span? = some ⟨start, stop⟩ := by
  cases f <;> exact ⟨_, rfl⟩

theorem Span.isEmpty_of_lt {s : Span} (h : s.start < s.stop) : s.isEmpty = false := by
  rw [isEmpty, beq_eq_false_iff_ne]
  omega

/-- Spans side by side, none of them empty, cover the stretch from one offset to another. -/
def Tiles : Nat → List Span → Nat → Prop
  | start, [], stop => start = stop
  | start, s :: spans, stop => s.start = start ∧ s.start < s.stop ∧ Tiles s.stop spans stop

theorem tiles_concat {start : Nat} {spans : List Span} {s : Span} (h : Tiles start spans s.start)
    (hlt : s.start < s.stop) : Tiles start (spans ++ [s]) s.stop := by
  induction spans generalizing start with
  | nil => exact ⟨h.symm, hlt, rfl⟩
  | cons s' spans ih => exact ⟨h.1, h.2.1, ih h.2.2⟩

namespace TokenStream

/-- How far the lexemes handed out reach. -/
def frontier (t : TokenStream) : Nat :=
  match t.phase with
  | .holding p => p.start
  | _ => t.position

theorem frontier_of_holding {t : TokenStream} {p : Placed} (h : t.phase = .holding p) :
    t.frontier = p.start := by
  rw [frontier, h]

abbrev Answer := Option (Except ParseError Placed)

def tokenOf? : Answer → Option Token
  | some (.ok p) => some p.token
  | _ => none

def errorOf? : Answer → Option ParseError
  | some (.error e) => some e
  | _ => none

/-- A stream and all that it has answered, the latest answer last. -/
structure History where
  answers : List Answer
  stream : TokenStream

namespace History

def ofText (source : String) : History :=
  ⟨[], .ofText source⟩

/-- One more request.  A stream that answers `none` stays as it is. -/
def request (h : History) : History :=
  match h.stream.next? with
  | none => ⟨h.answers ++ [none], h.stream⟩
  | some (r, t) => ⟨h.answers ++ [some r], t⟩

def tokens (h : History) : List Token :=
  h.answers.filterMap tokenOf?

def errors (h : History) : List ParseError :=
  h.answers.filterMap errorOf?

/-- The next request cuts off the structured lexeme `p`: it holds it back, or it hands it out although it
was not held back. -/
def CutsOff (h : History) (p : Placed) : Prop :=
  h.request.stream.phase = .holding p ∨
    h.request.answers.getLast? = some (some (.ok p)) ∧ p.lexeme.isText = false ∧
      h.stream.phase ≠ .holding p

/-- All that a stream of `source` promises about its answers and about where it stands. -/
structure Orderly (source : String) (h : History) : Prop where
  bounded : h.stream.position ≤ byteSize source.toList
  boundary : ∃ before, splitAtByte? h.stream.position source.toList = some (before, h.stream.rest)
  tiles : Tiles 0 (h.tokens.map Token.span) h.stream.frontier
  held : ∀ p, h.stream.phase = .holding p →
    p.token.kind ≠ .text ∧ p.token.span.start < p.token.span.stop ∧
      p.token.span.stop = h.stream.position
  behind : ∀ p, h.stream.phase = .holding p →
    (∃ t, h.tokens.getLast? = some t ∧ t.kind = .text ∧ t.span.stop = p.token.span.start) ∧
      h.errors = []
  /-- A structured lexeme is not empty, and it is cut off only while none is held back. -/
  slot : ∀ p, h.CutsOff p → p.token.span.isEmpty = false ∧ ∀ q, h.stream.phase ≠ .holding q
  errors : h.errors.length ≤ 1
  stopped : h.errors ≠ [] ∨ none ∈ h.answers →
    ∀ n, request^[n] h = ⟨h.answers ++ List.replicate n none, h.stream⟩
  /-- After an error the position is where the lexeme starts that cannot be cut off. -/
  atError : ∀ e ∈ h.errors, ∃ stop, e.span? = some ⟨h.stream.position, stop⟩
  atEnd : none ∈ h.answers → h.errors = [] → h.stream.position = byteSize source.toList

/-! ### What one request keeps -/

variable {source : String} {answers : List Answer} {t : TokenStream}

theorem tokens_concat (a : Answer) (t' : TokenStream) :
    tokens ⟨answers ++ [a], t'⟩ = tokens ⟨answers, t⟩ ++ (tokenOf? a).toList := by
  rw [tokens, List.filterMap_append]
  cases h : tokenOf? a <;> simp [tokens, h]

theorem errors_concat (a : Answer) (t' : TokenStream) :
    errors ⟨answers ++ [a], t'⟩ = errors ⟨answers, t⟩ ++ (errorOf? a).toList := by
  rw [errors, List.filterMap_append]
  cases h : errorOf? a <;> simp [errors, h]

/-- How a stream and its answers hang together. -/
structure Consistent (source : String) (h : History) : Prop where
  stands : h.stream.StandsIn source
  tiles : Tiles 0 (h.tokens.map Token.span) h.stream.frontier
  behind : ∀ p, h.stream.phase = .holding p →
    ∃ t, h.tokens.getLast? = some t ∧ t.kind = .text ∧ t.span.stop = p.start
  clean : h.stream.phase ≠ .failed → h.errors = []
  failed : h.stream.phase = .failed →
    ∃ e stop, h.errors = [e] ∧ e.span? = some ⟨h.stream.position, stop⟩
  silent : none ∈ h.answers → h.stream.next? = none

theorem consistent_ofText (source : String) : Consistent source (ofText source) where
  stands := .ofText source
  tiles := rfl
  behind := by simp [ofText, TokenStream.ofText]
  clean := fun _ => rfl
  failed := by simp [ofText, TokenStream.ofText]
  silent := by simp [ofText]

namespace Consistent

theorem silent_of_some {r : Except ParseError Placed} {t' : TokenStream}
    (h : Consistent source ⟨answers, t⟩) (hnext : t.next? = some (r, t')) :
    none ∉ answers ++ [some r] := by
  intro hmem
  have hmem' : none ∈ answers := by simpa using hmem
  exact absurd ((h.silent hmem').symm.trans hnext) (by simp)

theorem of_ok {p : Placed} {t' : TokenStream} (h : Consistent source ⟨answers, t⟩)
    (hnext : t.next? = some (.ok p, t')) (hstart : p.start = t.frontier) (hlt : p.start < p.stop)
    (hstop : p.stop = t'.frontier) (hphase : t'.phase ≠ .failed)
    (htext : ∀ q, t'.phase = .holding q → p.token.kind = .text) :
    Consistent source ⟨answers ++ [some (.ok p)], t'⟩ := by
  have htokens : tokens ⟨answers ++ [some (.ok p)], t'⟩ = tokens ⟨answers, t⟩ ++ [p.token] :=
    tokens_concat _ t'
  have herrors : errors ⟨answers ++ [some (.ok p)], t'⟩ = errors ⟨answers, t⟩ ++ [] :=
    errors_concat _ t'
  refine ⟨h.stands.step (step_of_next? hnext), ?_, ?_, fun _ => ?_, fun hfailed => absurd hfailed hphase,
    fun hmem => absurd hmem (h.silent_of_some hnext)⟩
  · have htiles : Tiles 0 ((tokens ⟨answers, t⟩).map Token.span) p.token.span.start := by
      show Tiles 0 _ p.start
      rw [hstart]
      exact h.tiles
    rw [htokens, List.map_append, ← hstop]
    exact tiles_concat htiles hlt
  · intro q hq
    refine ⟨p.token, ?_, htext q hq, hstop.trans (frontier_of_holding hq)⟩
    rw [htokens, List.getLast?_concat]
  · rw [herrors, List.append_nil]
    apply h.clean
    intro hfailed
    exact absurd (hnext.symm.trans (next?_eq_none_iff.mpr (Or.inl hfailed))) (by simp)

theorem step {r : Except ParseError Placed} {t' : TokenStream}
    (h : Consistent source ⟨answers, t⟩) (hnext : t.next? = some (r, t')) :
    Consistent source ⟨answers ++ [some r], t'⟩ := by
  have hstep := step_of_next? hnext
  cases hstep with
  | held start rest p =>
    obtain ⟨_, hlt, hstop⟩ := h.stands.held p rfl
    exact h.of_ok hnext rfl hlt hstop (by simp) (by simp)
  | structured start rest htext hne =>
    exact h.of_ok hnext rfl (start_lt_stop hne start) rfl (by simp) (by simp)
  | @ahead s x start rest hrun htext hne =>
    have hlt := start_lt_stop (x := .leaf (.text s)) hrun start
    exact h.of_ok hnext rfl hlt rfl (by simp) (fun _ _ => rfl)
  | @text s rest start hrun hbehind =>
    have hlt := start_lt_stop (x := .leaf (.text s)) hrun start
    exact h.of_ok hnext rfl hlt rfl (by simp) (fun _ _ => rfl)
  | @fault f rest start hf =>
    have hclean := h.clean (by simp)
    refine ⟨h.stands.step (step_of_next? hnext), ?_, by simp, by simp, fun _ => ?_,
      fun hmem => absurd hmem (h.silent_of_some hnext)⟩
    · rw [tokens_concat (t := ⟨start, rest, .reading⟩)]
      show Tiles 0 ((tokens ⟨answers, ⟨start, rest, .reading⟩⟩ ++ []).map Token.span) start
      rw [List.append_nil]
      exact h.tiles
    · obtain ⟨stop, hstop⟩ := f.span?_locate start (start + byteSize rest)
      refine ⟨_, stop, ?_, hstop⟩
      rw [errors_concat (t := ⟨start, rest, .reading⟩), hclean]
      rfl

/-- **What one request keeps.** -/
theorem request {h : History} (hh : Consistent source h) : Consistent source h.request := by
  obtain ⟨answers, t⟩ := h
  unfold History.request
  cases hnext : t.next? with
  | none =>
    obtain ⟨hstands, htiles, hbehind, hclean, hfailed, _⟩ := hh
    have htokens : tokens ⟨answers ++ [none], t⟩ = tokens ⟨answers, t⟩ ++ [] := tokens_concat none t
    have herrors : errors ⟨answers ++ [none], t⟩ = errors ⟨answers, t⟩ ++ [] := errors_concat none t
    rw [List.append_nil] at htokens herrors
    refine ⟨hstands, ?_, ?_, ?_, ?_, fun _ => hnext⟩
    · rw [htokens]
      exact htiles
    · rw [htokens]
      exact hbehind
    · rw [herrors]
      exact hclean
    · rw [herrors]
      exact hfailed
  | some found => exact hh.step hnext

theorem next?_of_stopped {h : History} (hh : Consistent source h)
    (hstop : h.errors ≠ [] ∨ none ∈ h.answers) : h.stream.next? = none := by
  rcases hstop with herrors | hnone
  · rw [next?_eq_none_iff]
    by_contra hphase
    rw [not_or] at hphase
    exact herrors (hh.clean hphase.1)
  · exact hh.silent hnone

end Consistent

/-- **What every number of requests keeps.** -/
theorem consistent_requests (source : String) (n : Nat) :
    Consistent source (request^[n] (ofText source)) := by
  induction n with
  | zero => exact consistent_ofText source
  | succ n ih =>
    rw [Function.iterate_succ_apply']
    exact ih.request

/-! ### The promises -/

/-- **A silent stream answers `none` for ever and stays as it is.** -/
theorem requests_of_silent {h : History} (hnext : h.stream.next? = none) (n : Nat) :
    request^[n] h = ⟨h.answers ++ List.replicate n none, h.stream⟩ := by
  induction n with
  | zero => simp
  | succ n ih =>
    rw [Function.iterate_succ_apply', ih, request, hnext, List.replicate_succ', List.append_assoc]

/-- **A lexeme is cut off only while none is held back**, and it is not empty. -/
theorem slot_of_cutsOff {h : History} {p : Placed} (hp : h.CutsOff p) :
    p.token.span.isEmpty = false ∧ ∀ q, h.stream.phase ≠ .holding q := by
  obtain ⟨answers, t⟩ := h
  unfold CutsOff request at hp
  cases hnext : t.next? with
  | none =>
    simp only [hnext, List.getLast?_concat] at hp
    rcases hp with hp | hp
    · simp [next?, hp] at hnext
    · exact absurd hp.1 (by simp)
  | some found =>
    obtain ⟨r, t'⟩ := found
    have hstep := step_of_next? hnext
    simp only [hnext, List.getLast?_concat] at hp
    cases hstep with
    | held start rest q =>
      rcases hp with hp | ⟨hlast, _, hheld⟩
      · exact absurd hp (by simp)
      · cases hlast
        exact absurd rfl hheld
    | structured start rest htext hne =>
      rcases hp with hp | ⟨hlast, _, _⟩
      · exact absurd hp (by simp)
      · cases hlast
        exact ⟨Span.isEmpty_of_lt (start_lt_stop hne start), by simp⟩
    | ahead start rest hrun htext hne =>
      rcases hp with hp | ⟨hlast, hstructured, _⟩
      · cases hp
        exact ⟨Span.isEmpty_of_lt (start_lt_stop hne _), by simp⟩
      · cases hlast
        exact absurd hstructured (by simp [Lexeme.isText])
    | text start hrun hbehind =>
      rcases hp with hp | ⟨hlast, hstructured, _⟩
      · exact absurd hp (by simp)
      · cases hlast
        exact absurd hstructured (by simp [Lexeme.isText])
    | fault start hf =>
      rcases hp with hp | ⟨hlast, _, _⟩
      · exact absurd hp (by simp)
      · exact absurd hlast (by simp)

/-- **All that a stream promises**, after any number of requests. -/
theorem orderly_requests (source : String) (n : Nat) :
    Orderly source (request^[n] (ofText source)) := by
  have hh := consistent_requests source n
  generalize request^[n] (ofText source) = h at hh
  obtain ⟨before, hcut⟩ := hh.stands.cut
  obtain ⟨happ, hsize⟩ := splitAtByte?_eq_some_iff.mp hcut
  have htotal : h.stream.position + byteSize h.stream.rest = byteSize source.toList := by
    rw [← hsize, ← byteSize_append, happ]
  refine ⟨by omega, ⟨before, hcut⟩, hh.tiles, ?_, ?_, fun p hp => slot_of_cutsOff hp, ?_, ?_, ?_, ?_⟩
  · intro p hp
    obtain ⟨htext, hlt, hstop⟩ := hh.stands.held p hp
    exact ⟨Lexeme.tokenKind_ne_text htext, hlt, hstop⟩
  · intro p hp
    exact ⟨hh.behind p hp, hh.clean (by simp [hp])⟩
  · by_cases hphase : h.stream.phase = .failed
    · obtain ⟨e, stop, herrors, _⟩ := hh.failed hphase
      simp [herrors]
    · simp [hh.clean hphase]
  · intro hstop
    exact requests_of_silent (hh.next?_of_stopped hstop)
  · intro e he
    have hphase : h.stream.phase = .failed := by
      by_contra hphase
      rw [hh.clean hphase] at he
      exact absurd he (by simp)
    obtain ⟨e', stop, herrors, hspan⟩ := hh.failed hphase
    rw [herrors, List.mem_singleton] at he
    exact ⟨stop, he ▸ hspan⟩
  · intro hnone herrors
    rcases next?_eq_none_iff.mp (hh.silent hnone) with hphase | ⟨_, hrest⟩
    · obtain ⟨e, _, he, _⟩ := hh.failed hphase
      exact absurd (herrors.symm.trans he) (by simp)
    · rw [hrest, byteSize_nil] at htotal
      exact htotal

/-- The delimiter is held back while the run before it is handed out; then the comment without an end is
reported, and there is nothing more. -/
example : (request^[4] (ofText "a(/*")).answers =
    [some (.ok ⟨.leaf (.text "a"), 0⟩), some (.ok ⟨.opening .paren, 1⟩),
      some (.error (.unterminatedComment ⟨2, 4⟩)), none] :=
  rfl

end History

end TokenStream

end LosslessSql
