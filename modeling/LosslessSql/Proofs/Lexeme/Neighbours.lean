import LosslessSql.Proofs.Lexeme.Sequence

/-!
# Which lexemes may stand side by side

Lexemes written one after another can run into each other: `$1` before `2` is another parameter, `-`
before `--x` begins its comment one character too early, and a line comment swallows whatever does not
begin with a line break.  `Lexeme.mayPrecede` lists these cases.  Two neighbours are enough to tell:

* `endsBefore_spelling_append_iff`: a lexeme ends before the next one exactly if it may precede it.
* `lexes_spelled_iff`: **a sequence of lexemes is read back from its text exactly if each lexeme is well
  formed and may precede the next.**
-/

namespace LosslessSql

def Leaf.mayPrecede : Leaf → Leaf → Bool
  | .text _, .text _ => false
  | .text s, .cast => s.toList.getLast? != some ':'
  | .text s, .named _ => s.toList.getLast? != some ':'
  | .text s, .lineComment _ => s.toList.getLast? != some '-'
  | .space _, .space _ => false
  | .ordinal _, .text s => !s.toList.head?.any Char.isDigit
  | .named _, .text s => !s.toList.head?.any isNamePart
  | .lineComment _, .space s => s.toList.head?.any isLineBreak
  | .lineComment _, _ => false
  | _, _ => true

/-- Whether two lexemes side by side stay apart; delimiters run into nothing, but a line comment
swallows them. -/
def Lexeme.mayPrecede : Lexeme → Lexeme → Bool
  | .leaf l, .leaf m => l.mayPrecede m
  | .leaf (.lineComment _), _ => false
  | _, _ => true

namespace Lexeme

theorem endsBefore_nil (x : Lexeme) : x.EndsBefore [] := by
  cases x with
  | leaf l =>
    cases l with
    | text s => exact ⟨fun c _ => clear_nil _, Or.inl rfl⟩
    | space s => exact clear_nil _
    | lineComment body => exact clear_nil _
    | ordinal o => exact clear_nil _
    | named name => exact clear_nil _
    | _ => trivial
  | _ => trivial

/-! ### The first character of a lexeme -/

theorem spelling_ne_nil {x : Lexeme} (h : x.WellFormed) : x.spelling ≠ [] := by
  cases x with
  | leaf l =>
    cases l with
    | text s => exact h.1
    | space s => exact h.1
    | _ => exact List.cons_ne_nil _ _
  | _ => exact List.cons_ne_nil _ _

theorem clear_append_iff {p : Char → Bool} {w : List Char} (hne : w ≠ []) (rest : List Char) :
    Clear p (w ++ rest) ↔ w.head?.any p = false := by
  cases w with
  | nil => exact absurd rfl hne
  | cons c w => simp

theorem exists_cons_of_wellFormed_text {s : String} (h : (Leaf.text s).WellFormed) :
    ∃ c cs, s.toList = c :: cs ∧ startsAlone c = false := by
  obtain ⟨c, cs, hs⟩ := List.exists_cons_of_ne_nil h.1
  exact ⟨c, cs, hs, h.2.1 c (hs ▸ List.mem_cons_self)⟩

theorem exists_cons_of_wellFormed_space {s : String} (h : (Leaf.space s).WellFormed) :
    ∃ c cs, s.toList = c :: cs ∧ isBlank c = true := by
  obtain ⟨c, cs, hs⟩ := List.exists_cons_of_ne_nil h.1
  exact ⟨c, cs, hs, h.2 c (hs ▸ List.mem_cons_self)⟩

/-- Where a structured lexeme is spelled, something starts, whatever follows. -/
theorem starts_spelling {x : Lexeme} (ht : x.isText = false) (hw : x.WellFormed)
    (rest : List Char) : starts (x.spelling ++ rest) = true := by
  cases x with
  | leaf l =>
    cases l with
    | text s => exact absurd ht (by simp [isText])
    | space s =>
      obtain ⟨c, cs, hs, hc⟩ := exists_cons_of_wellFormed_space hw
      rw [spelling, Leaf.spelling, hs]
      simp [starts, startsAlone, hc]
    | quoted q body => cases q <;> rfl
    | ordinal o =>
      obtain ⟨c, cs, ho⟩ := List.exists_cons_of_ne_nil (Ordinal.spelling_ne_nil_of_nonneg hw)
      have hc := Ordinal.isDigit_of_mem_spelling hw (ho ▸ List.mem_cons_self)
      rw [spelling, Leaf.spelling, ho]
      simp [starts, startsPair, hc]
    | named name =>
      obtain ⟨hstart, _⟩ := hw
      rw [spelling, Leaf.spelling]
      cases hn : name.toList with
      | nil => exact absurd hstart (by simp [hn])
      | cons c cs =>
        rw [hn] at hstart
        have hc : isNameStart c = true := hstart
        simp [starts, startsPair, hc]
    | _ => rfl
  | opening d => cases d <;> rfl
  | closing d => cases d <;> rfl

/-- Where plain text is spelled that ends there, nothing starts. -/
theorem starts_text {s : String} {rest : List Char} (hw : (Leaf.text s).WellFormed)
    (he : (Leaf.text s).EndsBefore rest) : starts (s.toList ++ rest) = false := by
  have hrun : PlainRun s.toList rest := by
    rw [plainRun_iff hw.1, String.ofList_toList]
    exact ⟨hw, he⟩
  obtain ⟨c, cs, hs, _⟩ := exists_cons_of_wellFormed_text hw
  rw [hs, plainRun_cons_iff] at hrun
  rw [hs]
  exact hrun.1

/-! ### A lexeme and the next one

Only blanks, line comments, parameters and plain text can reach further than their spelling.  For each
of them the first character of the next lexeme decides, kind by kind. -/

theorem isBlank_eq_false_of_alone {c : Char} (h : startsAlone c = false) : isBlank c = false := by
  simp only [startsAlone, Bool.or_eq_false_iff] at h
  exact h.1.1.1

theorem isNamePart_eq_false_of_isBlank {c : Char} (h : isBlank c = true) : isNamePart c = false := by
  simp only [isBlank, Bool.or_eq_true, beq_iff_eq] at h
  rcases h with (((rfl | rfl) | rfl) | rfl) | rfl <;> decide

theorem isNamePart_of_isDigit {c : Char} (h : c.isDigit = true) : isNamePart c = true := by
  simp [isNamePart, Char.isAlphanum, h]

theorem any_isBlank_iff {y : Lexeme} (hy : y.WellFormed) (s : String) :
    y.spelling.head?.any isBlank = false ↔ (leaf (.space s)).mayPrecede y = true := by
  cases y with
  | leaf l =>
    cases l with
    | text s' =>
      obtain ⟨c, cs, hs, hc⟩ := exists_cons_of_wellFormed_text hy
      refine iff_of_true ?_ rfl
      rw [spelling, Leaf.spelling, hs]
      exact isBlank_eq_false_of_alone hc
    | space s' =>
      obtain ⟨c, cs, hs, hc⟩ := exists_cons_of_wellFormed_space hy
      refine iff_of_false ?_ (by simp [mayPrecede, Leaf.mayPrecede])
      rw [spelling, Leaf.spelling, hs]
      simp [hc]
    | quoted q body => cases q <;> exact iff_of_true rfl rfl
    | _ => exact iff_of_true rfl rfl
  | opening d => cases d <;> exact iff_of_true rfl rfl
  | closing d => cases d <;> exact iff_of_true rfl rfl

theorem any_not_isLineBreak_iff {y : Lexeme} (hy : y.WellFormed) (body : String) :
    y.spelling.head?.any (fun c => !isLineBreak c) = false ↔
      (leaf (.lineComment body)).mayPrecede y = true := by
  cases y with
  | leaf l =>
    cases l with
    | text s =>
      obtain ⟨c, cs, hs, hc⟩ := exists_cons_of_wellFormed_text hy
      have hblank := isBlank_eq_false_of_alone hc
      simp only [isBlank, Bool.or_eq_false_iff] at hblank
      refine iff_of_false ?_ (by simp [mayPrecede, Leaf.mayPrecede])
      rw [spelling, Leaf.spelling, hs]
      simp [isLineBreak, hblank.1.2, hblank.2]
    | space s =>
      obtain ⟨c, cs, hs, _⟩ := exists_cons_of_wellFormed_space hy
      rw [spelling, Leaf.spelling, mayPrecede, Leaf.mayPrecede, hs]
      simp
    | quoted q body => cases q <;> exact iff_of_false Bool.true_eq_false.mp Bool.false_ne_true
    | _ => exact iff_of_false Bool.true_eq_false.mp Bool.false_ne_true
  | opening d => cases d <;> exact iff_of_false Bool.true_eq_false.mp Bool.false_ne_true
  | closing d => cases d <;> exact iff_of_false Bool.true_eq_false.mp Bool.false_ne_true

theorem any_isNamePart {y : Lexeme} (ht : y.isText = false) (hy : y.WellFormed) :
    y.spelling.head?.any isNamePart = false := by
  cases y with
  | leaf l =>
    cases l with
    | text s => exact absurd ht (by simp [isText])
    | space s =>
      obtain ⟨c, cs, hs, hc⟩ := exists_cons_of_wellFormed_space hy
      rw [spelling, Leaf.spelling, hs]
      exact isNamePart_eq_false_of_isBlank hc
    | quoted q body => cases q <;> rfl
    | _ => rfl
  | opening d => cases d <;> rfl
  | closing d => cases d <;> rfl

/-- A leaf that ends with a run of `p`, a class of characters of names, keeps apart from everything but
plain text that goes on with such a character. -/
theorem any_iff_of_run {p : Char → Bool} (hp : ∀ c, p c = true → isNamePart c = true) {l : Leaf}
    (htext : ∀ s, (leaf l).mayPrecede (leaf (.text s)) = !s.toList.head?.any p)
    (hother : ∀ y : Lexeme, y.isText = false → (leaf l).mayPrecede y = true) {y : Lexeme}
    (hy : y.WellFormed) :
    y.spelling.head?.any p = false ↔ (leaf l).mayPrecede y = true := by
  cases ht : y.isText with
  | true =>
    match y with
    | leaf (.text s) => rw [htext, Bool.not_eq_true', spelling, Leaf.spelling]
  | false =>
    refine iff_of_true ?_ (hother y ht)
    have hname := any_isNamePart ht hy
    cases hc : y.spelling.head? with
    | none => rfl
    | some c =>
      rw [hc, Option.any_some] at hname
      rw [Option.any_some]
      by_contra hpc
      rw [Bool.not_eq_false] at hpc
      exact absurd ((hp c hpc).symm.trans hname) (by decide)

theorem any_isDigit_iff {y : Lexeme} (hy : y.WellFormed) (o : Ordinal) :
    y.spelling.head?.any Char.isDigit = false ↔ (leaf (.ordinal o)).mayPrecede y = true := by
  refine any_iff_of_run (fun c => isNamePart_of_isDigit) (fun s => rfl) (fun y ht => ?_) hy
  cases y with
  | leaf l =>
    cases l with
    | text s => exact absurd ht (by simp [isText])
    | _ => rfl
  | _ => rfl

theorem any_isNamePart_iff {y : Lexeme} (hy : y.WellFormed) (name : String) :
    y.spelling.head?.any isNamePart = false ↔ (leaf (.named name)).mayPrecede y = true := by
  refine any_iff_of_run (fun c hc => hc) (fun s => rfl) (fun y ht => ?_) hy
  cases y with
  | leaf l =>
    cases l with
    | text s => exact absurd ht (by simp [isText])
    | _ => rfl
  | _ => rfl

theorem startsPair_eq_false {d : Char} (hd : isNamePart d = false) (hdash : d ≠ '-') (hstar : d ≠ '*')
    (hcolon : d ≠ ':') (c : Char) : startsPair c d = false := by
  simp only [isNamePart, Char.isAlphanum, Bool.or_eq_false_iff] at hd
  simp [startsPair, isNameStart, hd.1.1, hd.1.2, hd.2, hdash, hstar, hcolon]

theorem forall_startsPair_iff {d : Char} (h : ∀ c, startsPair c d = (c == d)) (last : Option Char) :
    (∀ c ∈ last, startsPair c d = false) ↔ (last != some d) = true := by
  cases last with
  | none => simp
  | some c => simp [h]

/-- Plain text keeps apart from a structured lexeme unless its last character, with the first one of
the lexeme, begins something of its own. -/
theorem forall_any_startsPair_iff {y : Lexeme} (ht : y.isText = false) (hy : y.WellFormed)
    (s : String) :
    (∀ c ∈ s.toList.getLast?, y.spelling.head?.any (startsPair c) = false) ↔
      (leaf (.text s)).mayPrecede y = true := by
  have hdash : ∀ c, startsPair c '-' = (c == '-') := fun c => by simp [startsPair, isNameStart]
  have hcolon : ∀ c, startsPair c ':' = (c == ':') := fun c => by simp [startsPair, isNameStart]
  cases y with
  | leaf l =>
    cases l with
    | text s' => exact absurd ht (by simp [isText])
    | space s' =>
      obtain ⟨d, cs, hs, hd⟩ := exists_cons_of_wellFormed_space hy
      refine iff_of_true (fun c _ => ?_) rfl
      rw [spelling, Leaf.spelling, hs]
      refine startsPair_eq_false (isNamePart_eq_false_of_isBlank hd) ?_ ?_ ?_ c <;> rintro rfl <;>
        exact absurd hd (by decide)
    | quoted q body =>
      refine iff_of_true (fun c _ => ?_) rfl
      cases q <;> exact startsPair_eq_false rfl (by decide) (by decide) (by decide) c
    | lineComment body => exact forall_startsPair_iff hdash _
    | blockComment body =>
      exact iff_of_true (fun c _ => startsPair_eq_false rfl (by decide) (by decide) (by decide) c) rfl
    | cast => exact forall_startsPair_iff hcolon _
    | ordinal o =>
      exact iff_of_true (fun c _ => startsPair_eq_false rfl (by decide) (by decide) (by decide) c) rfl
    | named name => exact forall_startsPair_iff hcolon _
  | opening d =>
    refine iff_of_true (fun c _ => ?_) rfl
    cases d <;> exact startsPair_eq_false rfl (by decide) (by decide) (by decide) c
  | closing d =>
    refine iff_of_true (fun c _ => ?_) rfl
    cases d <;> exact startsPair_eq_false rfl (by decide) (by decide) (by decide) c

/-- **A lexeme ends before the next one exactly if it may precede it**, whatever comes after the two. -/
theorem endsBefore_spelling_append_iff {x y : Lexeme} {rest : List Char} (hy : y.WellFormed)
    (he : y.EndsBefore rest) : x.EndsBefore (y.spelling ++ rest) ↔ x.mayPrecede y = true := by
  have hne := spelling_ne_nil hy
  cases x with
  | leaf l =>
    cases l with
    | text s =>
      cases ht : y.isText with
      | true =>
        match y with
        | leaf (.text s') =>
          refine iff_of_false ?_ Bool.false_ne_true
          intro h
          obtain ⟨_, hnil | hstarts⟩ := h
          · exact hne (List.append_eq_nil_iff.mp hnil).1
          · exact absurd (hstarts.symm.trans (starts_text hy he)) (by decide)
      | false =>
        rw [← forall_any_startsPair_iff ht hy s]
        refine ⟨?_, ?_⟩
        · rintro ⟨hjoin, _⟩ c hc
          exact (clear_append_iff hne rest).mp (hjoin c hc)
        · intro hjoin
          refine ⟨fun c hc => (clear_append_iff hne rest).mpr (hjoin c hc), Or.inr ?_⟩
          exact starts_spelling ht hy rest
    | space s => exact (clear_append_iff hne rest).trans (any_isBlank_iff hy s)
    | lineComment body => exact (clear_append_iff hne rest).trans (any_not_isLineBreak_iff hy body)
    | ordinal o => exact (clear_append_iff hne rest).trans (any_isDigit_iff hy o)
    | named name => exact (clear_append_iff hne rest).trans (any_isNamePart_iff hy name)
    | quoted q body => cases y <;> exact iff_of_true trivial rfl
    | blockComment body => cases y <;> exact iff_of_true trivial rfl
    | cast => cases y <;> exact iff_of_true trivial rfl
  | opening d => exact iff_of_true trivial rfl
  | closing d => exact iff_of_true trivial rfl

end Lexeme

/-! ### Reading a sequence back -/

theorem lexes_spelled_cons_iff {x : Lexeme} {xs : List Lexeme} :
    Lexes (spelled (x :: xs)) (x :: xs) none ↔
      x.WellFormed ∧ x.EndsBefore (spelled xs) ∧ Lexes (spelled xs) xs none := by
  rw [lexes_cons_iff, spelled_cons]
  refine ⟨?_, ?_⟩
  · intro hx
    obtain ⟨rest, happ, hw, he, h⟩ := hx
    rw [← List.append_cancel_left happ] at he h
    exact ⟨hw, he, h⟩
  · intro hx
    obtain ⟨hw, he, h⟩ := hx
    exact ⟨spelled xs, rfl, hw, he, h⟩

/-- **A sequence of lexemes is read back from its text exactly if each lexeme is well formed and may
precede the next.** -/
theorem lexes_spelled_iff {xs : List Lexeme} :
    Lexes (spelled xs) xs none ↔
      (∀ x ∈ xs, x.WellFormed) ∧ xs.IsChain fun x y => x.mayPrecede y = true := by
  induction xs with
  | nil => exact iff_of_true .done ⟨by simp, .nil⟩
  | cons x xs ih =>
    rw [lexes_spelled_cons_iff, List.forall_mem_cons]
    cases xs with
    | nil => simp [Lexeme.endsBefore_nil, Lexes.done]
    | cons y ys =>
      have hnext (h : Lexes (spelled (y :: ys)) (y :: ys) none) :
          x.EndsBefore (spelled (y :: ys)) ↔ x.mayPrecede y = true := by
        obtain ⟨hw, he, _⟩ := lexes_spelled_cons_iff.mp h
        rw [spelled_cons]
        exact Lexeme.endsBefore_spelling_append_iff hw he
      rw [List.isChain_cons_cons]
      refine ⟨?_, ?_⟩
      · intro hx
        obtain ⟨hw, he, h⟩ := hx
        obtain ⟨hall, hchain⟩ := ih.mp h
        exact ⟨⟨hw, hall⟩, (hnext h).mp he, hchain⟩
      · intro hx
        obtain ⟨⟨hw, hall⟩, hxy, hchain⟩ := hx
        have h := ih.mpr ⟨hall, hchain⟩
        exact ⟨hw, (hnext h).mpr hxy, h⟩

end LosslessSql
