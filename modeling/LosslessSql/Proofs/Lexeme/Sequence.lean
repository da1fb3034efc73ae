import LosslessSql.Proofs.Lexeme.Exact

/-!
# Texts as sequences of lexemes

`Lexes cs xs fault` says, in the words of `Proofs/Lexeme/Grammar.lean` alone, that the text `cs` is the
lexemes `xs` one after another, up to a fault if there is one.  Positions play no part in it: `place`
puts them in afterwards.

* `exists_lexes`: every text is such a sequence.
* `spelled_of_lexes`: without a fault, the lexemes spell the text.
* `splits_of_mem_place`: each lexeme stands in the text where `place` says.
-/

namespace LosslessSql

def spelled (xs : List Lexeme) : List Char :=
  xs.flatMap Lexeme.spelling

@[simp] theorem spelled_nil : spelled [] = [] := rfl

@[simp] theorem spelled_cons (x : Lexeme) (xs : List Lexeme) :
    spelled (x :: xs) = x.spelling ++ spelled xs := by
  simp [spelled]

@[simp] theorem spelled_append (xs ys : List Lexeme) :
    spelled (xs ++ ys) = spelled xs ++ spelled ys := by
  simp [spelled]

/-- Lexemes one after another, the first at the byte offset `start`. -/
def place : Nat → List Lexeme → List Placed
  | _, [] => []
  | start, x :: xs => ⟨x, start⟩ :: place (start + x.size) xs

@[simp] theorem map_lexeme_place (start : Nat) (xs : List Lexeme) :
    (place start xs).map Placed.lexeme = xs := by
  induction xs generalizing start with
  | nil => rfl
  | cons x xs ih => rw [place, List.map_cons, ih]

/-- A text is a sequence of lexemes: all of it, or up to the place where a fault arises. -/
inductive Lexes : List Char → List Lexeme → Option Fault → Prop
  | done : Lexes [] [] none
  | fault {cs : List Char} {f : Fault} : f.Arises cs → Lexes cs [] (some f)
  | cons {x : Lexeme} {rest : List Char} {xs : List Lexeme} {fault : Option Fault} :
      x.WellFormed → x.EndsBefore rest → Lexes rest xs fault →
      Lexes (x.spelling ++ rest) (x :: xs) fault

/-! ### Plain text as a lexeme -/

theorem plainRun_iff {run rest : List Char} (hne : run ≠ []) :
    PlainRun run rest ↔ (Lexeme.leaf (.text (String.ofList run))).WellFormed ∧
      (Lexeme.leaf (.text (String.ofList run))).EndsBefore rest := by
  simp only [Lexeme.WellFormed, Lexeme.EndsBefore, Leaf.WellFormed, Leaf.EndsBefore,
    String.toList_ofList]
  refine ⟨?_, ?_⟩
  · intro h
    obtain ⟨ha, hch, hj, hs⟩ := h
    exact ⟨⟨hne, ha, hch⟩, hj, hs⟩
  · intro h
    obtain ⟨⟨_, ha, hch⟩, hj, hs⟩ := h
    exact ⟨ha, hch, hj, hs⟩

/-- **One lexeme at a time.**  Every text but the empty one begins with a lexeme or a fault. -/
theorem exists_head {cs : List Char} (hne : cs ≠ []) :
    (∃ f : Fault, f.Arises cs) ∨ ∃ (x : Lexeme) (rest : List Char), cs = x.spelling ++ rest ∧
      x.WellFormed ∧ x.EndsBefore rest ∧ rest.length < cs.length := by
  cases hr : structured? cs with
  | some r =>
    cases r with
    | error f => exact Or.inl ⟨f, structured?_eq_error_iff.mp hr⟩
    | ok cut =>
      obtain ⟨happ, _, hw, he⟩ := structured?_eq_ok_iff.mp hr
      exact Or.inr ⟨cut.lexeme, cut.rest, happ, hw, he, rest_length_lt hr⟩
  | none =>
    cases cs with
    | nil => exact absurd rfl hne
    | cons c cs =>
      have hsplit := splitPlain_cons (structured?_eq_none_iff.mp hr)
      obtain ⟨happ, hrun⟩ := splitPlain_eq_iff.mp hsplit
      obtain ⟨hw, he⟩ := (plainRun_iff (List.cons_ne_nil c _)).mp hrun
      refine Or.inr ⟨_, _, ?_, hw, he, ?_⟩
      · rw [Lexeme.spelling, Leaf.spelling, String.toList_ofList]
        exact happ
      · rw [happ, List.cons_append, List.length_cons, List.length_append]
        omega

/-- **Every text is a sequence of lexemes, up to a fault if there is one.** -/
theorem exists_lexes (cs : List Char) : ∃ xs fault, Lexes cs xs fault := by
  induction hn : cs.length using Nat.strong_induction_on generalizing cs with
  | _ n ih =>
    by_cases hne : cs = []
    · subst hne
      exact ⟨[], none, .done⟩
    · rcases exists_head hne with ⟨f, hf⟩ | ⟨x, rest, happ, hw, he, hlt⟩
      · exact ⟨[], some f, .fault hf⟩
      · obtain ⟨xs, fault, h⟩ := ih rest.length (hn ▸ hlt) rest rfl
        exact ⟨x :: xs, fault, happ ▸ .cons hw he h⟩

/-! ### What a sequence says about its text -/

theorem lexes_nil_iff {cs : List Char} : Lexes cs [] none ↔ cs = [] := by
  refine ⟨?_, ?_⟩
  · intro h
    cases h
    rfl
  · rintro rfl
    exact .done

theorem lexes_cons_iff {cs : List Char} {x : Lexeme} {xs : List Lexeme} {fault : Option Fault} :
    Lexes cs (x :: xs) fault ↔ ∃ rest, cs = x.spelling ++ rest ∧ x.WellFormed ∧ x.EndsBefore rest ∧
      Lexes rest xs fault := by
  refine ⟨?_, ?_⟩
  · intro h
    cases h with
    | cons hw he h => exact ⟨_, rfl, hw, he, h⟩
  · intro hx
    obtain ⟨rest, rfl, hw, he, h⟩ := hx
    exact .cons hw he h

/-- The lexemes are spelled at the head of the text, and a fault arises right behind them. -/
theorem append_of_lexes {cs : List Char} {xs : List Lexeme} {fault : Option Fault}
    (h : Lexes cs xs fault) : ∃ tail, cs = spelled xs ++ tail ∧ Lexes tail [] fault := by
  induction h with
  | done => exact ⟨[], rfl, .done⟩
  | fault hf => exact ⟨_, rfl, .fault hf⟩
  | cons _ _ _ ih =>
    obtain ⟨tail, rfl, ht⟩ := ih
    exact ⟨tail, by rw [spelled_cons, List.append_assoc], ht⟩

theorem spelled_of_lexes {cs : List Char} {xs : List Lexeme} (h : Lexes cs xs none) :
    spelled xs = cs := by
  obtain ⟨tail, rfl, ht⟩ := append_of_lexes h
  rw [lexes_nil_iff.mp ht, List.append_nil]

/-- **A placed lexeme stands in the text at its offset.** -/
theorem splits_of_mem_place {before : List Char} {xs : List Lexeme} {p : Placed}
    (h : p ∈ place (byteSize before) xs) (tail : List Char) :
    ∃ left right, before ++ (spelled xs ++ tail) = left ++ (p.lexeme.spelling ++ right) ∧
      byteSize left = p.start := by
  induction xs generalizing before with
  | nil => exact absurd h (by simp [place])
  | cons x xs ih =>
    rcases List.mem_cons.mp h with rfl | h
    · exact ⟨before, spelled xs ++ tail, by rw [spelled_cons, List.append_assoc], rfl⟩
    · rw [Lexeme.size, ← byteSize_append] at h
      obtain ⟨left, right, he, hl⟩ := ih h
      refine ⟨left, right, ?_, hl⟩
      rw [← he, spelled_cons, List.append_assoc, List.append_assoc]

end LosslessSql
