import LosslessSql.Proofs.Lexeme.Joining
import LosslessSql.Proofs.Node.Stack
import LosslessSql.Proofs.Parse
import LosslessSql.Proofs.Resume
import LosslessSql.Snippet

/-!
# Errors that no continuation mends

A delimiter that cannot stand where it does ends a parse at once.  The text up to it has the same lexemes
whatever follows, since a delimiter ends every lexeme before it and is itself one character; so the text
behind it plays no part in the error, even one that could not be read at all.

* `foldlM_eq_error_of_parse`: such an error is the builder's, not the stream's.
* `endsBefore_of_refused`: the lexeme that a builder refuses ends whatever follows it.
* `parse_of_refused`: a text that begins with lexemes of which the builder refuses the last.
* `parse_misfit_continued`: **the error stays the same, however the text goes on behind the delimiter.**
-/

namespace LosslessSql

open Node TokenStream

variable {φ : Type} {source : String} {e : ParseError} {p : Nat}

/-- An error that a delimiter makes is the builder's: neither a fault nor the end of the text makes it. -/
theorem foldlM_eq_error_of_parse {xs : List Lexeme} {fault : Option Fault}
    (hlex : Lexes source.toList xs fault) (h : parse (φ := φ) source = .error e)
    (hp : e.delimiterAt? = some p) :
    (place 0 xs).foldlM Builder.add (Builder.empty (φ := φ)) = .error e := by
  rw [parse_eq hlex] at h
  cases hrun : (place 0 xs).foldlM Builder.add (Builder.empty (φ := φ)) with
  | error e' =>
    rw [hrun] at h
    obtain rfl : e' = e := Except.error.inj h
    rfl
  | ok b =>
    rw [hrun] at h
    cases fault with
    | none =>
      have hnone := stoppedAt?_finish b (byteSize source.toList)
      have hfinish : b.finish (byteSize source.toList) = .error e := h
      rw [hfinish] at hnone
      exact absurd (hp.symm.trans hnone) (by simp)
    | some f =>
      have hnone := delimiterAt?_locate f (byteSize (spelled xs)) (byteSize source.toList)
      obtain rfl : f.locate (byteSize (spelled xs)) (byteSize source.toList) = e := Except.error.inj h
      exact absurd (hp.symm.trans hnone) (by simp)

/-- The lexeme that a builder refuses is a delimiter, which ends whatever follows it. -/
theorem endsBefore_of_refused {b : Builder φ} {q : Placed} (h : b.add q = .error e) :
    q.lexeme.WellFormed ∧ ∀ rest, q.lexeme.EndsBefore rest := by
  rcases Builder.add_eq_error h with ⟨d, hq, _⟩ | ⟨d, hq, _⟩ | ⟨d, _, _, hq, _⟩
  all_goals
    rw [hq]
    exact ⟨trivial, fun _ => trivial⟩

theorem parse_of_refused {ys zs : List Lexeme} {q : Placed} {fault : Option Fault} {b : Builder φ}
    (hlex : Lexes source.toList (ys ++ q.lexeme :: zs) fault)
    (hstart : q.start = byteSize (spelled ys))
    (hb : (place 0 ys).foldlM Builder.add Builder.empty = .ok b) (hadd : b.add q = .error e) :
    parse (φ := φ) source = .error e := by
  have hplace : place 0 (ys ++ q.lexeme :: zs) = place 0 ys ++ q :: place q.stop zs := by
    rw [place_append, Nat.zero_add, ← hstart]
    rfl
  have hrun : (place 0 (ys ++ q.lexeme :: zs)).foldlM Builder.add (Builder.empty (φ := φ)) =
      .error e :=
    foldlM_eq_error_iff.mpr ⟨place 0 ys, q, place q.stop zs, b, hplace, hb, hadd⟩
  rw [parse_eq hlex, hrun]
  rfl

/-- **The error stays the same, however the text goes on behind the delimiter.** -/
theorem parse_misfit_continued (h : parse (φ := φ) source = .error e)
    (hp : e.delimiterAt? = some p) :
    ∃ left right, splitAtByte? (p + 1) source.toList = some (left, right) ∧
      ∀ more : String, parse (φ := φ) (String.ofList left ++ more) = .error e := by
  obtain ⟨xs, fault, hlex⟩ := exists_lexes source.toList
  have hrun := foldlM_eq_error_of_parse hlex h hp
  obtain ⟨us, q, vs, b, hplace, hb, hadd⟩ := foldlM_eq_error_iff.mp hrun
  obtain ⟨ys, zs, rfl, rfl, hstart, rfl⟩ := exists_of_place_eq_append hplace
  rw [Nat.zero_add] at hstart
  obtain ⟨hw, hends⟩ := endsBefore_of_refused hadd
  obtain ⟨_, hstop, he⟩ := delimiter_of_add_eq_error hadd
  obtain rfl : q.start = p := Option.some.inj (he.symm.trans hp)
  obtain ⟨hall, hchain⟩ := fits_of_lexes hlex
  obtain ⟨tail, hsource, htail⟩ := lexes_of_append hlex
  obtain ⟨rest, rfl, _⟩ := lexes_cons_iff.mp htail
  refine ⟨spelled ys ++ q.lexeme.spelling, rest, ?_, ?_⟩
  · have hsize : byteSize (spelled ys ++ q.lexeme.spelling) = q.start + 1 := by
      rw [← hstop, byteSize_append, Placed.stop, hstart]
      rfl
    rw [hsource, ← List.append_assoc, ← hsize]
    exact splitAtByte?_append _ rest
  · intro more
    -- What follows the delimiter is read anew; what stands before it is read as before.
    obtain ⟨zs', fault', hmore⟩ := exists_lexes more.toList
    have hbegin : Lexes (q.lexeme.spelling ++ more.toList) (q.lexeme :: zs') fault' :=
      .cons hw (hends _) hmore
    have hbefore : (ys ++ [q.lexeme]).IsChain fun x y => x.mayPrecede y = true := by
      rw [← List.singleton_append, ← List.append_assoc] at hchain
      exact hchain.left_of_append
    have hjoined := lexes_join (fun x hx => hall x (List.mem_append_left _ hx)) hbefore hbegin
    rw [← List.append_assoc, ← String.toList_ofList (l := spelled ys ++ q.lexeme.spelling),
      ← String.toList_append] at hjoined
    exact parse_of_refused hjoined hstart hb hadd

/-- Neither the quotation that is open behind the bracket nor what else may follow it plays a part. -/
theorem parse_misfit_continued_bracket :
    parse (φ := Snippet) "é(a] '" = .error (.unexpectedClosing ']' (some ')') 4) ∧
    ∃ left right, splitAtByte? 5 "é(a] '".toList = some (left, right) ∧ ∀ more : String,
      parse (φ := Snippet) (String.ofList left ++ more) =
        .error (.unexpectedClosing ']' (some ')') 4) := by
  have hparse : parse (φ := Snippet) "é(a] '" = .error (.unexpectedClosing ']' (some ')') 4) := by
    with_unfolding_all rfl
  exact ⟨hparse, parse_misfit_continued hparse rfl⟩

end LosslessSql
