import LosslessSql.Proofs.Lexeme.Neighbours

/-!
# Cutting and joining sequences of lexemes

Whether a lexeme ends where it does is seen from the next lexeme alone, and at the end of a text every
lexeme ends.  So a sequence of lexemes can be cut between any two of them, whatever made up the rest of
the text, and it can be continued by any text that begins with a lexeme that may follow its last one.

* `fits_of_lexes`: the lexemes of a text are well formed and may precede one another, with a fault behind
  them or not.
* `lexes_spelled_of_lexes`: **the first lexemes of a text are the lexemes of what they spell.**
* `lexes_of_append`: what follows them is the sequence of the other lexemes.
* `lexes_join`: **a sequence goes on in any text that begins with a lexeme that may follow it.**
* `place_append`, `exists_of_place_eq_append`: where the parts of a sequence are placed.
-/

namespace LosslessSql

/-! ### Neighbours in a text -/

section Head

variable {x y : Lexeme} {cs : List Char} {ys : List Lexeme} {fault : Option Fault}

theorem endsBefore_iff_mayPrecede (h : Lexes cs (y :: ys) fault) :
    x.EndsBefore cs ↔ x.mayPrecede y = true := by
  obtain ⟨rest, rfl, hw, he, _⟩ := lexes_cons_iff.mp h
  exact Lexeme.endsBefore_spelling_append_iff hw he

/-- **The lexemes of a text fit**, up to its fault or its end. -/
theorem fits_of_lexes {xs : List Lexeme} (h : Lexes cs xs fault) :
    (∀ x ∈ xs, x.WellFormed) ∧ xs.IsChain fun x y => x.mayPrecede y = true := by
  induction h with
  | done => exact ⟨by simp, .nil⟩
  | fault hf => exact ⟨by simp, .nil⟩
  | @cons x rest xs fault hw he h ih =>
    obtain ⟨hall, hchain⟩ := ih
    refine ⟨List.forall_mem_cons.mpr ⟨hw, hall⟩, ?_⟩
    cases xs with
    | nil => exact .singleton x
    | cons y ys =>
      have hxy : x.mayPrecede y = true := (endsBefore_iff_mayPrecede h).mp he
      exact List.isChain_cons_cons.mpr ⟨hxy, hchain⟩

end Head

/-! ### Cutting -/

section Cutting

variable {cs : List Char} {xs ys : List Lexeme} {fault : Option Fault}

/-- **The first lexemes of a text are the lexemes of what they spell.**  The cut takes away what the last
of them was followed by, and at the end of a text every lexeme ends. -/
theorem lexes_spelled_of_lexes (h : Lexes cs (xs ++ ys) fault) : Lexes (spelled xs) xs none := by
  obtain ⟨hall, hchain⟩ := fits_of_lexes h
  refine lexes_spelled_iff.mpr ⟨?_, hchain.left_of_append⟩
  intro x hx
  exact hall x (List.mem_append_left ys hx)

theorem lexes_of_append (h : Lexes cs (xs ++ ys) fault) :
    ∃ rest, cs = spelled xs ++ rest ∧ Lexes rest ys fault := by
  induction xs generalizing cs with
  | nil => exact ⟨cs, rfl, h⟩
  | cons x xs ih =>
    obtain ⟨tail, rfl, _, _, htail⟩ := lexes_cons_iff.mp h
    obtain ⟨rest, rfl, hrest⟩ := ih htail
    exact ⟨rest, by rw [spelled_cons, List.append_assoc], hrest⟩

end Cutting

/-! ### Joining -/

/-- **A sequence goes on in any text that begins with a lexeme that may follow it.** -/
theorem lexes_join {xs ys : List Lexeme} {y : Lexeme} {rest : List Char} {fault : Option Fault}
    (hall : ∀ x ∈ xs, x.WellFormed) (hchain : (xs ++ [y]).IsChain fun x y => x.mayPrecede y = true)
    (h : Lexes rest (y :: ys) fault) : Lexes (spelled xs ++ rest) (xs ++ y :: ys) fault := by
  induction xs with
  | nil => exact h
  | cons x xs ih =>
    rw [List.forall_mem_cons] at hall
    rw [List.cons_append, List.isChain_cons] at hchain
    obtain ⟨hnext, hchain⟩ := hchain
    have hjoined := ih hall.2 hchain
    rw [spelled_cons, List.append_assoc, List.cons_append]
    refine .cons hall.1 ?_ hjoined
    -- The lexeme behind `x` is the next one of the sequence, or `y` if there is none.
    cases xs with
    | nil => exact (endsBefore_iff_mayPrecede hjoined).mpr (hnext y rfl)
    | cons z zs => exact (endsBefore_iff_mayPrecede hjoined).mpr (hnext z rfl)

/-! ### Where the parts are placed -/

theorem place_append (start : Nat) (xs ys : List Lexeme) :
    place start (xs ++ ys) = place start xs ++ place (start + byteSize (spelled xs)) ys := by
  induction xs generalizing start with
  | nil => rfl
  | cons x xs ih =>
    rw [List.cons_append, place, place, ih, List.cons_append, spelled_cons, byteSize_append,
      Nat.add_assoc]
    rfl

/-- A lexeme among placed ones starts where the lexemes before it end. -/
theorem exists_of_place_eq_append {start : Nat} {xs : List Lexeme} {ps qs : List Placed} {p : Placed}
    (h : place start xs = ps ++ p :: qs) :
    ∃ ys zs, xs = ys ++ p.lexeme :: zs ∧ ps = place start ys ∧
      p.start = start + byteSize (spelled ys) ∧ qs = place p.stop zs := by
  induction ps generalizing start xs with
  | nil =>
    cases xs with
    | nil => exact absurd h (by simp [place])
    | cons x xs =>
      obtain ⟨rfl, rfl⟩ := List.cons.inj h
      exact ⟨[], xs, rfl, rfl, rfl, rfl⟩
  | cons q ps ih =>
    cases xs with
    | nil => exact absurd h (by simp [place])
    | cons x xs =>
      obtain ⟨rfl, htail⟩ := List.cons.inj h
      obtain ⟨ys, zs, rfl, rfl, hstart, rfl⟩ := ih htail
      refine ⟨x :: ys, zs, rfl, rfl, ?_, rfl⟩
      rw [hstart, spelled_cons, byteSize_append, Nat.add_assoc]
      rfl

end LosslessSql
