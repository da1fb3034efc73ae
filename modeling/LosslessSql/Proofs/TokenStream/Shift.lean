import LosslessSql.Node.Builder

/-!
# Reading a text from a later offset on

A stream looks only at the text that is left.  Its position goes into the offsets of what it hands out and
reports, and into nothing else: a stream whose offsets are all moved by `k` bytes gives the same answers,
moved by `k`.

* `next?_shift`: one request.
* `fold_shift`: a whole run, if the step commutes with moving offsets.
* `parse_shift`, `parseTimes_shift`: **reading from a later offset on finds the same trees**, and the same
  errors at later offsets.
-/

namespace LosslessSql

def Span.shift (k : Nat) (s : Span) : Span :=
  ⟨s.start + k, s.stop + k⟩

def ParseError.shift (k : Nat) : ParseError → ParseError
  | .unterminatedQuote quote span => .unterminatedQuote quote (span.shift k)
  | .unterminatedComment span => .unterminatedComment (span.shift k)
  | .unexpectedClosing found expected position => .unexpectedClosing found expected (position + k)
  | .missingClosing expected openedAt position =>
    .missingClosing expected (openedAt + k) (position + k)
  | .nestingTooDeep limit position => .nestingTooDeep limit (position + k)
  | .ordinalOutOfRange span => .ordinalOutOfRange (span.shift k)

def Placed.shift (k : Nat) (p : Placed) : Placed :=
  ⟨p.lexeme, p.start + k⟩

theorem Fault.locate_shift (k : Nat) (f : Fault) (start size : Nat) :
    f.locate (start + k) (size + k) = (f.locate start size).shift k := by
  cases f with
  | openQuote q => rfl
  | openComment => rfl
  | hugeOrdinal digits =>
    have hstop : start + k + 1 + digits = start + 1 + digits + k := by omega
    simp [Fault.locate, ParseError.shift, Span.shift, hstop]

/-- A result with its offsets moved: those of an error, or by `f` those of the value. -/
def shifted {α : Type} (k : Nat) (f : α → α) (r : Except ParseError α) : Except ParseError α :=
  (r.map f).mapError (ParseError.shift k)

@[simp] theorem shifted_ok {α : Type} (k : Nat) (f : α → α) (a : α) :
    shifted k f (.ok a) = .ok (f a) := rfl

@[simp] theorem shifted_error {α : Type} (k : Nat) (f : α → α) (e : ParseError) :
    shifted k f (.error e) = .error (e.shift k) := rfl

/-! ### Streams -/

def Phase.shift (k : Nat) : Phase → Phase
  | .reading => .reading
  | .holding p => .holding (p.shift k)
  | .failed => .failed

namespace TokenStream

/-- A stream that stands at a later offset of a longer text. -/
def shift (k : Nat) (t : TokenStream) : TokenStream :=
  ⟨t.position + k, t.rest, t.phase.shift k⟩

theorem size_shift (k : Nat) (t : TokenStream) : (t.shift k).size = t.size + k := by
  simp only [size, shift]
  omega

theorem read?_shift (k : Nat) (t : TokenStream) :
    (t.shift k).read? =
      t.read?.map fun (r, t') => (shifted k (Placed.shift k) r, t'.shift k) := by
  have hsize := size_shift k t
  unfold read?
  rw [hsize]
  dsimp only [shift]
  rcases splitPlain t.rest with ⟨run, rest⟩
  cases run with
  | nil =>
    cases hr : structured? rest with
    | none => simp only [hr, Option.map_none]
    | some found =>
      cases found with
      | error f =>
        simp only [hr, f.locate_shift, Option.map_some]
        rfl
      | ok cut =>
        simp only [hr, Nat.add_right_comm _ k, Option.map_some]
        rfl
  | cons c run =>
    have hstop (x : Lexeme) (start : Nat) : Placed.stop ⟨x, start + k⟩ = Placed.stop ⟨x, start⟩ + k := by
      simp only [Placed.stop]
      omega
    cases hr : structured? rest with
    | none =>
      simp only [hr, hstop, Option.map_some]
      rfl
    | some found =>
      cases found with
      | error f =>
        simp only [hr, hstop, Option.map_some]
        rfl
      | ok cut =>
        simp only [hr, hstop, Option.map_some]
        rfl

/-- **A stream looks only at the text that is left.** -/
theorem next?_shift (k : Nat) (t : TokenStream) :
    (t.shift k).next? =
      t.next?.map fun (r, t') => (shifted k (Placed.shift k) r, t'.shift k) := by
  obtain ⟨start, rest, phase⟩ := t
  cases phase with
  | reading => exact read?_shift k ⟨start, rest, .reading⟩
  | holding p => rfl
  | failed => rfl

section Fold

variable {α : Type} {step : α → Placed → Except ParseError α} {t t' : TokenStream}

theorem fold_of_none (h : t.next? = none) (a : α) : t.fold step a = (.ok a, t) := by
  rw [fold]
  split
  · rfl
  · next he => exact absurd (h.symm.trans he) (by simp)
  · next he => exact absurd (h.symm.trans he) (by simp)

theorem fold_of_error {e : ParseError} (h : t.next? = some (.error e, t')) (a : α) :
    t.fold step a = (.error e, t') := by
  rw [fold]
  split
  · next he => exact absurd (h.symm.trans he) (by simp)
  · next he =>
    cases h.symm.trans he
    rfl
  · next he => exact absurd (h.symm.trans he) (by simp)

theorem fold_of_ok {p : Placed} (h : t.next? = some (.ok p, t')) (a : α) :
    t.fold step a =
      match step a p with
      | .error e => (.error e, t')
      | .ok a' => t'.fold step a' := by
  rw [fold]
  split
  · next he => exact absurd (h.symm.trans he) (by simp)
  · next he => exact absurd (h.symm.trans he) (by simp)
  · next he =>
    cases h.symm.trans he
    rfl

/-- **A run from a later offset on.**  `f` moves the offsets that the step keeps. -/
theorem fold_shift {f : α → α} {k : Nat}
    (hstep : ∀ a p, step (f a) (p.shift k) = shifted k f (step a p)) (a : α) (t : TokenStream) :
    (t.shift k).fold step (f a) =
      (shifted k f (t.fold step a).1, (t.fold step a).2.shift k) := by
  fun_induction fold step a t with
  | case1 a t hnext =>
    have hshift : (t.shift k).next? = none := by rw [next?_shift, hnext]; rfl
    exact fold_of_none hshift (f a)
  | case2 a t e t' hnext =>
    have hshift : (t.shift k).next? = some (.error (e.shift k), t'.shift k) := by
      rw [next?_shift, hnext]
      rfl
    exact fold_of_error hshift (f a)
  | case3 a t p t' hnext e hs =>
    have hshift : (t.shift k).next? = some (.ok (p.shift k), t'.shift k) := by
      rw [next?_shift, hnext]
      rfl
    rw [fold_of_ok hshift, hstep, hs]
    rfl
  | case4 a t p t' hnext a' hs ih =>
    have hshift : (t.shift k).next? = some (.ok (p.shift k), t'.shift k) := by
      rw [next?_shift, hnext]
      rfl
    rw [fold_of_ok hshift, hstep, hs]
    exact ih

end Fold

end TokenStream

/-! ### Trees -/

namespace Builder

variable {φ : Type}

def shift (k : Nat) (b : Builder φ) : Builder φ :=
  ⟨b.frames.map fun frame => { frame with openedAt := frame.openedAt + k }, b.nodes⟩

theorem add_shift (k : Nat) (b : Builder φ) (p : Placed) :
    (b.shift k).add (p.shift k) = shifted k (shift k) (b.add p) := by
  obtain ⟨frames, nodes⟩ := b
  obtain ⟨x, start⟩ := p
  cases x with
  | leaf l => rfl
  | opening d =>
    simp only [add, Placed.shift, shift, openAt, List.length_map]
    by_cases hdepth : frames.length < maxDepth
    · simp only [if_pos hdepth]
      rfl
    · simp only [if_neg hdepth]
      rfl
  | closing d =>
    cases frames with
    | nil => rfl
    | cons frame frames =>
      simp only [add, Placed.shift, shift, closeAt, List.map_cons]
      by_cases hd : frame.delimiter = d
      · simp only [if_pos hd]
        rfl
      · simp only [if_neg hd]
        rfl

theorem finish_shift (k : Nat) (b : Builder φ) (stop : Nat) :
    (b.shift k).finish (stop + k) = (b.finish stop).mapError (ParseError.shift k) := by
  obtain ⟨frames, nodes⟩ := b
  cases frames with
  | nil => rfl
  | cons frame frames => rfl

end Builder

namespace TokenStream

variable {φ : Type}

/-- **Reading from a later offset on finds the same tree, or the same error at a later offset.** -/
theorem parse_shift (k : Nat) (t : TokenStream) :
    (t.shift k).parse (φ := φ) =
      ((t.parse (φ := φ)).1.mapError (ParseError.shift k), (t.parse (φ := φ)).2.shift k) := by
  have hempty : (Builder.empty : Builder φ).shift k = Builder.empty := rfl
  have hfold := fold_shift (Builder.add_shift k) (Builder.empty : Builder φ) t
  rw [hempty] at hfold
  unfold parse
  rw [hfold]
  rcases t.fold Builder.add (Builder.empty : Builder φ) with ⟨found, t'⟩
  cases found with
  | error e => rfl
  | ok b => simp only [shifted_ok, size_shift, Builder.finish_shift]

theorem parseTimes_succ (times : Nat) (t : TokenStream) :
    parseTimes (φ := φ) (times + 1) t = t.parse.1 :: parseTimes times (t.parse (φ := φ)).2 := rfl

theorem parseTimes_shift (k times : Nat) (t : TokenStream) :
    parseTimes (φ := φ) times (t.shift k) =
      (parseTimes times t).map (Except.mapError (ParseError.shift k)) := by
  induction times generalizing t with
  | zero => rfl
  | succ times ih => rw [parseTimes_succ, parseTimes_succ, parse_shift, List.map_cons, ih]

end TokenStream

end LosslessSql
