import LosslessSql.Proofs.Lexeme.Sequence
import LosslessSql.Proofs.TokenStream.Step

/-!
# All that a stream gives

`TokenStream.results` asks a stream again and again until it answers `none`.  The lexeme that a stream
holds back does not show in it: from a position on, the results are the lexemes of the text that is
left, each where it stands, and the error of the fault behind them,

    results ⟨start, cs, .reading⟩ = place start xs, then the fault      if  Lexes cs xs fault.

* `results_of_lexes`: this equation.
* `fold_eq_foldlM`: running a step over a stream is running it over its results.
* `size_of_fold`: a run keeps the end of the text in place.
-/

namespace LosslessSql.TokenStream

/-! ### Asking until there is nothing more -/

def patience (t : TokenStream) : Nat :=
  match t.phase with
  | .failed => 0
  | _ => t.remaining + 1

theorem patience_le (t : TokenStream) : t.patience ≤ t.remaining + 1 := by
  unfold patience
  split <;> omega

theorem patience_eq_of_next? {t t' : TokenStream} {r : Except ParseError Placed}
    (h : t.next? = some (r, t')) : t.patience = t.remaining + 1 := by
  unfold next? at h
  unfold patience
  split at h
  · next hphase => rw [hphase]
  · exact absurd h (by simp)
  · next hphase => rw [hphase]

theorem phase_of_next?_error {t t' : TokenStream} {e : ParseError}
    (h : t.next? = some (.error e, t')) : t'.phase = .failed := by
  cases step_of_next? h
  rfl

theorem patience_lt_of_next? {t t' : TokenStream} {r : Except ParseError Placed}
    (h : t.next? = some (r, t')) : t'.patience < t.patience := by
  rw [patience_eq_of_next? h]
  cases r with
  | ok p =>
    have hlt := remaining_lt_of_next? h
    have hle := patience_le t'
    omega
  | error e =>
    rw [patience, phase_of_next?_error h]
    exact Nat.succ_pos _

/-- Everything that a stream answers until it answers `none`. -/
def results (t : TokenStream) : List (Except ParseError Placed) :=
  match _h : t.next? with
  | none => []
  | some (r, t') => r :: results t'
termination_by t.patience
decreasing_by exact patience_lt_of_next? _h

theorem results_of_none {t : TokenStream} (h : t.next? = none) : t.results = [] := by
  rw [results]
  split
  · rfl
  · next he => rw [h] at he; exact absurd he (by simp)

theorem results_of_some {t t' : TokenStream} {r : Except ParseError Placed}
    (h : t.next? = some (r, t')) : t.results = r :: t'.results := by
  rw [results]
  split
  · next he => rw [h] at he; exact absurd he (by simp)
  · next he =>
    rw [h] at he
    obtain ⟨rfl, rfl⟩ := Prod.mk.inj (Option.some.inj he)
    rfl

/-! ### The lexeme held back does not show -/

theorem results_failed (start : Nat) (cs : List Char) :
    results ⟨start, cs, .failed⟩ = [] :=
  results_of_none rfl

theorem results_holding (start : Nat) (cs : List Char) (p : Placed) :
    results ⟨start, cs, .holding p⟩ = .ok p :: results ⟨start, cs, .reading⟩ :=
  results_of_some rfl

theorem results_nil (start : Nat) : results ⟨start, [], .reading⟩ = [] :=
  results_of_none rfl

theorem splitPlain_of_structured? {cs : List Char} {r : Except Fault Cut}
    (h : structured? cs = some r) : splitPlain cs = ([], cs) := by
  apply splitPlain_of_starts
  rw [← isSome_structured?, h]
  rfl

theorem results_error {cs : List Char} {f : Fault} (h : structured? cs = some (.error f))
    (start : Nat) :
    results ⟨start, cs, .reading⟩ = [.error (f.locate start (start + byteSize cs))] := by
  have hnext : next? ⟨start, cs, .reading⟩ =
      some (.error (f.locate start (start + byteSize cs)), ⟨start, cs, .failed⟩) := by
    simp only [next?, read?, splitPlain_of_structured? h, h]
    rfl
  rw [results_of_some hnext, results_failed]

theorem results_structured {cs : List Char} {cut : Cut} (h : structured? cs = some (.ok cut))
    (start : Nat) :
    results ⟨start, cs, .reading⟩ =
      .ok ⟨cut.lexeme, start⟩ :: results ⟨start + cut.lexeme.size, cut.rest, .reading⟩ := by
  apply results_of_some
  simp only [next?, read?, splitPlain_of_structured? h, h]

@[simp] theorem size_text (run : List Char) :
    (Lexeme.leaf (.text (String.ofList run))).size = byteSize run := by
  rw [Lexeme.size, Lexeme.spelling, Leaf.spelling, String.toList_ofList]

/-- Behind a plain run the stream goes on as if it had read no further, whether it holds a lexeme, has
met a fault, or is at the end. -/
theorem results_text {c : Char} {cs run rest : List Char} (h : splitPlain cs = (c :: run, rest))
    (start : Nat) :
    results ⟨start, cs, .reading⟩ = .ok ⟨.leaf (.text (String.ofList (c :: run))), start⟩ ::
      results ⟨start + byteSize (c :: run), rest, .reading⟩ := by
  have hstop : Placed.stop ⟨.leaf (.text (String.ofList (c :: run))), start⟩ =
      start + byteSize (c :: run) := by
    rw [Placed.stop, size_text]
  cases hr : structured? rest with
  | none =>
    apply results_of_some
    simp only [next?, read?, h, hr, hstop]
  | some r =>
    cases r with
    | error f =>
      apply results_of_some
      simp only [next?, read?, h, hr, hstop]
    | ok cut =>
      -- The lexeme behind the run has been read already; the next request hands it out.
      have hnext : next? ⟨start, cs, .reading⟩ =
          some (.ok ⟨.leaf (.text (String.ofList (c :: run))), start⟩,
            ⟨start + byteSize (c :: run) + cut.lexeme.size, cut.rest,
              .holding ⟨cut.lexeme, start + byteSize (c :: run)⟩⟩) := by
        simp only [next?, read?, h, hr, hstop]
        rfl
      rw [results_of_some hnext, results_holding, results_structured hr]

/-! ### The results of a text -/

theorem results_cons {x : Lexeme} {rest : List Char} (hw : x.WellFormed) (he : x.EndsBefore rest)
    (start : Nat) :
    results ⟨start, x.spelling ++ rest, .reading⟩ =
      .ok ⟨x, start⟩ :: results ⟨start + x.size, rest, .reading⟩ := by
  cases ht : x.isText with
  | false => exact results_structured (structured?_spelling ht hw he) start
  | true =>
    match x with
    | .leaf (.text s) =>
      have hne : s.toList ≠ [] := hw.1
      have hrun : PlainRun s.toList rest := by
        rw [plainRun_iff hne, String.ofList_toList]
        exact ⟨hw, he⟩
      have hsplit := splitPlain_of_plainRun hrun
      cases hs : s.toList with
      | nil => exact absurd hs hne
      | cons c run =>
        rw [hs] at hsplit
        have hs' : String.ofList (c :: run) = s := by rw [← hs, String.ofList_toList]
        rw [Lexeme.size, Lexeme.spelling, Leaf.spelling, hs, results_text hsplit, hs']

/-- **The results of a text are its lexemes, each where it stands, and its fault.** -/
theorem results_of_lexes {cs : List Char} {xs : List Lexeme} {fault : Option Fault}
    (h : Lexes cs xs fault) (start : Nat) :
    results ⟨start, cs, .reading⟩ = (place start xs).map .ok ++
      (fault.map fun f => .error
        (f.locate (start + byteSize (spelled xs)) (start + byteSize cs))).toList := by
  induction h generalizing start with
  | done => exact results_nil start
  | fault hf => exact results_error (structured?_of_arises hf) start
  | @cons x rest xs fault hw he _ ih =>
    rw [results_cons hw he, ih, place, List.map_cons, List.cons_append, Lexeme.size, spelled_cons,
      byteSize_append, byteSize_append, Nat.add_assoc, Nat.add_assoc]

/-! ### Running through a stream -/

/-- **Running a step over a stream is running it over its results.**  The first error ends the run,
whether the stream or the step gives it. -/
theorem fold_eq_foldlM {α : Type} (step : α → Placed → Except ParseError α) (a : α)
    (t : TokenStream) :
    (t.fold step a).1 = t.results.foldlM (fun a r => r >>= step a) a := by
  fun_induction fold step a t with
  | case1 a t hnext =>
    rw [results_of_none hnext]
    rfl
  | case2 a t e t' hnext =>
    rw [results_of_some hnext]
    rfl
  | case3 a t p t' hnext e hstep =>
    rw [results_of_some hnext, List.foldlM_cons]
    show Except.error e = step a p >>= _
    rw [hstep]
    rfl
  | case4 a t p t' hnext a' hstep ih =>
    rw [results_of_some hnext, List.foldlM_cons, ih]
    show _ = step a p >>= _
    rw [hstep]
    rfl

theorem exists_results_ofText (source : String) :
    ∃ (ps : List Placed) (e : Option ParseError),
      (ofText source).results = ps.map .ok ++ (e.map .error).toList := by
  obtain ⟨xs, fault, h⟩ := exists_lexes source.toList
  refine ⟨place 0 xs, fault.map fun f =>
    f.locate (0 + byteSize (spelled xs)) (0 + byteSize source.toList), ?_⟩
  rw [ofText, results_of_lexes h, Option.map_map]
  rfl

/-- **All lexemes to come, or the error behind them.** -/
theorem tokenize_of_results {t : TokenStream} {ps : List Placed} {e : Option ParseError}
    (h : t.results = ps.map .ok ++ (e.map .error).toList) :
    t.tokenize.1 = e.elim (.ok ps) .error := by
  show (t.fold (fun placed p => .ok (p :: placed)) []).1.map List.reverse = _
  have hcollect : ps.foldlM (fun placed p => .ok (p :: placed)) [] =
      (.ok ps.reverse : Except ParseError (List Placed)) := by
    have hpure := List.foldlM_pure (m := Except ParseError)
      (f := fun placed (p : Placed) => p :: placed) (b := []) (l := ps)
    rw [List.foldl_flip_cons_eq_append', List.append_nil] at hpure
    exact hpure
  rw [fold_eq_foldlM, h, List.foldlM_append, List.foldlM_map]
  show Except.map List.reverse (ps.foldlM (fun placed p => Except.ok (p :: placed)) [] >>= _) = _
  rw [hcollect]
  cases e with
  | none => exact congrArg Except.ok (List.reverse_reverse ps)
  | some e => rfl

theorem size_of_next? {t t' : TokenStream} {r : Except ParseError Placed}
    (h : t.next? = some (r, t')) : t'.size = t.size := by
  cases step_of_next? h with
  | held start rest p => rfl
  | structured start rest _ _ =>
    simp only [size, Lexeme.size, byteSize_append]
    omega
  | ahead start rest _ _ _ =>
    simp only [size, Lexeme.size, byteSize_append]
    omega
  | text start _ _ =>
    simp only [size, byteSize_append]
    omega
  | fault start _ => rfl

theorem size_of_fold {α : Type} (step : α → Placed → Except ParseError α) (a : α)
    (t : TokenStream) : (t.fold step a).2.size = t.size := by
  fun_induction fold step a t with
  | case1 => rfl
  | case2 a t e t' hnext => exact size_of_next? hnext
  | case3 a t p t' hnext => exact size_of_next? hnext
  | case4 a t p t' hnext a' hstep ih => rw [ih, size_of_next? hnext]

end LosslessSql.TokenStream
