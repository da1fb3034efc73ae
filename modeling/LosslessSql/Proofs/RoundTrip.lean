import LosslessSql.Proofs.Node.Canonical
import LosslessSql.Proofs.Parse
import LosslessSql.Snippet

/-!
# Reading and writing

* `renderAll_of_parse`: **from text to tree and back**: a tree that was read is written as the text it
  was read from.
* `parse_renderAll_iff_canonicalTree`: **from tree to text and back**: a tree that is written is read as
  itself exactly if it is canonical, and these are the trees that can be read at all.
-/

namespace LosslessSql

open Node

variable {φ : Type} [Fragment φ]

/-! ### From text to tree and back -/

/-- **A tree that was read is written as the text it was read from**, to the last byte. -/
theorem renderAll_of_parse {source : String} {t : List (Node φ)} (h : parse source = .ok t) :
    renderAll t = source :=
  (eq_renderAll_of_parse h).symm

/-- A text with marks, zeros, a character of two bytes and empty groups, read and written back. -/
theorem renderAll_mixed_query :
    ∃ t : List (Node Snippet), parse "é('--', $007::t)[{}]/**/:a-- b" = .ok t ∧
      renderAll t = "é('--', $007::t)[{}]/**/:a-- b" := by
  have h : parse (φ := Snippet) "é('--', $007::t)[{}]/**/:a-- b" = .ok
      [.leaf (.text "é"),
        .group (some .paren) [.leaf (.quoted .single "--"), .leaf (.text ","), .leaf (.space " "),
          .leaf (.ordinal ⟨7, 2⟩), .leaf .cast, .leaf (.text "t")],
        .group (some .bracket) [.group (some .brace) []], .leaf (.blockComment ""),
        .leaf (.named "a"), .leaf (.lineComment " b")] := by
    with_unfolding_all rfl
  exact ⟨_, h, renderAll_of_parse h⟩

/-! ### From tree to text and back -/

/-- A canonical sequence of nodes with at most `maxDepth` fences around any place of it. -/
structure CanonicalTree (t : List (Node φ)) : Prop extends CanonicalAll t where
  shallow : depthAll t ≤ maxDepth

theorem parse_renderAll_eq_ok_iff {t : List (Node φ)} :
    parse (renderAll t) = .ok t ↔ CanonicalTree t := by
  rw [parse_eq_ok_iff, renderAll, String.toList_ofList]
  refine ⟨?_, ?_⟩
  · intro h
    obtain ⟨hlex, hf, hd⟩ := h
    rw [← spelled_lexemesAll hf] at hlex
    obtain ⟨hw, hchain⟩ := lexes_spelled_iff.mp hlex
    exact ⟨canonicalAll_iff.mpr ⟨hf, hw, hchain⟩, hd⟩
  · intro h
    obtain ⟨hc, hd⟩ := h
    obtain ⟨hf, hw, hchain⟩ := canonicalAll_iff.mp hc
    refine ⟨?_, hf, hd⟩
    rw [← spelled_lexemesAll hf]
    exact lexes_spelled_iff.mpr ⟨hw, hchain⟩

theorem canonicalTree_of_parse {source : String} {t : List (Node φ)} (h : parse source = .ok t) :
    CanonicalTree t := by
  obtain rfl := eq_renderAll_of_parse h
  exact parse_renderAll_eq_ok_iff.mp h

/-- **A tree is read back from its text exactly if it is canonical**, and the canonical trees are
exactly those that some text reads as. -/
theorem parse_renderAll_iff_canonicalTree (t : List (Node φ)) :
    ((∃ t', parse (renderAll t) = .ok t' ∧ (t' == t) = true) ↔ CanonicalTree t) ∧
      ((∃ source, parse source = .ok t) ↔ CanonicalTree t) := by
  refine ⟨?_, ?_⟩
  · refine ⟨?_, ?_⟩
    · intro hx
      obtain ⟨t', hparse, hsame⟩ := hx
      have hf : FencedAll t' := (parse_eq_ok_iff.mp hparse).2.1
      obtain rfl := (beq_iff_eq_of_fencedAll hf t).mp hsame
      exact parse_renderAll_eq_ok_iff.mp hparse
    · intro h
      have hf : FencedAll t := (canonicalAll_iff.mp h.toCanonicalAll).1
      exact ⟨t, parse_renderAll_eq_ok_iff.mpr h, (beq_iff_eq_of_fencedAll hf t).mpr rfl⟩
  · refine ⟨?_, ?_⟩
    · intro hx
      obtain ⟨source, hparse⟩ := hx
      exact canonicalTree_of_parse hparse
    · intro h
      exact ⟨renderAll t, parse_renderAll_eq_ok_iff.mpr h⟩

end LosslessSql
