import LosslessSql.Proofs.Node.Builder
import LosslessSql.Proofs.TokenStream.Results

/-!
# The tree of a text by its lexemes

`parse` runs a builder over a stream that looks ahead and may fail.  `parse_eq` takes the stream away:
the result depends on the lexemes of the text, where they stand, and the fault behind them.
`parse_eq_ok_iff` takes the builder away as well: a tree is read exactly if its lexemes are those of the
text, it is fenced, and it is not nested too deeply.  So nothing of a text is lost
(`spellAll_of_parse`), and what is read is the text of some tree (`eq_renderAll_of_parse`).
-/

namespace LosslessSql

open Node TokenStream

variable {φ : Type}

theorem tokenize_of_lexes {source : String} {xs : List Lexeme} (h : Lexes source.toList xs none) :
    tokenize source = .ok (place 0 xs) := by
  have hresults := results_of_lexes h 0
  rw [Option.map_none, Option.toList_none] at hresults
  exact tokenize_of_results (e := none) hresults

theorem parse_eq_foldlM (source : String) :
    parse (φ := φ) source =
      (ofText source).results.foldlM (fun b r => r >>= Builder.add b) Builder.empty >>=
        fun b => b.finish (byteSize source.toList) := by
  have hsize := size_of_fold Builder.add (Builder.empty (φ := φ)) (ofText source)
  rw [← fold_eq_foldlM, LosslessSql.parse, TokenStream.parse]
  rcases hfold : (ofText source).fold Builder.add (Builder.empty (φ := φ)) with ⟨found, t⟩
  rw [hfold] at hsize
  have hstop : t.size = byteSize source.toList := by
    rw [hsize]
    exact Nat.zero_add _
  cases found with
  | error e => rfl
  | ok b =>
    show b.finish t.size = b.finish (byteSize source.toList)
    rw [hstop]

/-- **A parse is a run of the builder over the placed lexemes**, and then the fault or the end. -/
theorem parse_eq {source : String} {xs : List Lexeme} {fault : Option Fault}
    (h : Lexes source.toList xs fault) :
    parse (φ := φ) source = (place 0 xs).foldlM Builder.add Builder.empty >>= fun b =>
      (fault.map fun f => f.locate (byteSize (spelled xs)) (byteSize source.toList)).elim
        (b.finish (byteSize source.toList)) .error := by
  have hresults := results_of_lexes h 0
  rw [Nat.zero_add, Nat.zero_add] at hresults
  rw [parse_eq_foldlM, ofText, hresults, List.foldlM_append, List.foldlM_map, bind_assoc]
  congr 1
  funext b
  cases fault with
  | none => rfl
  | some f => rfl

theorem finish_eq_ok_iff {b : Builder φ} {stop : Nat} {t : List (Node φ)} :
    b.finish stop = .ok t ↔ b = ⟨[], t.reverse⟩ := by
  obtain ⟨frames, nodes⟩ := b
  cases frames with
  | nil =>
    simp only [Builder.finish, Except.ok.injEq, Builder.mk.injEq, true_and]
    exact List.reverse_eq_iff
  | cons frame frames => simp [Builder.finish]

theorem parse_eq_ok_iff_of_lexes {source : String} {xs : List Lexeme} {fault : Option Fault}
    (h : Lexes source.toList xs fault) {t : List (Node φ)} :
    parse source = .ok t ↔ fault = none ∧ FencedAll t ∧ depthAll t ≤ maxDepth ∧ xs = lexemesAll t := by
  rw [parse_eq h]
  cases hrun : (place 0 xs).foldlM Builder.add (Builder.empty (φ := φ)) with
  | error e =>
    refine ⟨?_, ?_⟩
    · intro he
      exact absurd he (by simp [bind, Except.bind])
    · intro hx
      obtain ⟨_, hf, hd, hxs⟩ := hx
      have hok := Builder.foldlM_empty_eq_ok_iff.mpr ⟨hf, hd, (map_lexeme_place 0 xs).trans hxs⟩
      exact absurd (hrun.symm.trans hok) (by simp)
  | ok b =>
    rw [← map_lexeme_place 0 xs, ← Builder.foldlM_empty_eq_ok_iff, map_lexeme_place, hrun]
    cases fault with
    | none => simp [bind, Except.bind, finish_eq_ok_iff]
    | some f => simp [bind, Except.bind]

/-- **A tree is read exactly if the text is the lexemes of the tree**, the tree is fenced, and it is not
nested too deeply. -/
theorem parse_eq_ok_iff {source : String} {t : List (Node φ)} :
    parse source = .ok t ↔
      Lexes source.toList (lexemesAll t) none ∧ FencedAll t ∧ depthAll t ≤ maxDepth := by
  refine ⟨?_, ?_⟩
  · intro h
    obtain ⟨xs, fault, hlex⟩ := exists_lexes source.toList
    obtain ⟨rfl, hf, hd, rfl⟩ := (parse_eq_ok_iff_of_lexes hlex).mp h
    exact ⟨hlex, hf, hd⟩
  · intro hx
    obtain ⟨hlex, hf, hd⟩ := hx
    exact (parse_eq_ok_iff_of_lexes hlex).mpr ⟨rfl, hf, hd, rfl⟩

/-- **The text of a tree that was read is the text it was read from.** -/
theorem spellAll_of_parse [Fragment φ] {source : String} {t : List (Node φ)}
    (h : parse source = .ok t) : spellAll t = source.toList := by
  obtain ⟨hlex, hf, _⟩ := parse_eq_ok_iff.mp h
  rw [← spelled_lexemesAll hf]
  exact spelled_of_lexes hlex

theorem eq_renderAll_of_parse [Fragment φ] {source : String} {t : List (Node φ)}
    (h : parse source = .ok t) : source = renderAll t := by
  rw [renderAll, spellAll_of_parse h, String.ofList_toList]

end LosslessSql
