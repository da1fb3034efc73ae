import LosslessSql.Proofs.Nesting
import LosslessSql.Proofs.Node.Builder

/-!
# The open delimiters of a builder

What a builder has open, told from the word that it took and not from its frames.

* `foldlM_isOk_iff`: **a builder takes exactly the words that can be completed to a nested word.**
* `innermost_of_holds`, `innermost?_eq`: its innermost frame is the innermost open delimiter.
* `length_frames_of_holds`: it has as many frames as delimiters are open.
* `foldlM_eq_error_iff`: a run fails at the first lexeme that a builder does not take.
-/

namespace LosslessSql

/-- The innermost delimiter that is open behind some tokens and the byte offset where it was opened:
what follows it is nested.  None is open behind a nested word. -/
inductive Innermost : List Token → Option (Delimiter × Nat) → Prop
  | none {ts : List Token} : Nested (ts.map Token.kind) → Innermost ts none
  | some {us vs : List Token} {d : Delimiter} {span : Span} : Nested (vs.map Token.kind) →
      Innermost (us ++ ⟨.opening d, span⟩ :: vs) (some (d, span.start))

def word (ps : List Placed) : List TokenKind :=
  ps.map fun p => p.lexeme.tokenKind

@[simp] theorem word_append (ps qs : List Placed) : word (ps ++ qs) = word ps ++ word qs := by
  simp [word]

@[simp] theorem word_cons (p : Placed) (ps : List Placed) :
    word (p :: ps) = p.lexeme.tokenKind :: word ps := rfl

theorem word_eq {ps : List Placed} {xs : List Lexeme} (h : ps.map Placed.lexeme = xs) :
    word ps = xs.map Lexeme.tokenKind := by
  rw [← h, List.map_map]
  rfl

theorem map_kind_map_token (ps : List Placed) : (ps.map Placed.token).map Token.kind = word ps := by
  rw [List.map_map]
  rfl

/-! ### Runs that fail -/

theorem bind_eq_ok_iff {ε α β : Type} {x : Except ε α} {f : α → Except ε β} {b : β} :
    x >>= f = .ok b ↔ ∃ a, x = .ok a ∧ f a = .ok b := by
  cases x with
  | error e => simp [bind, Except.bind]
  | ok a => simp [bind, Except.bind]

theorem foldlM_eq_error_iff {ε α β : Type} {step : β → α → Except ε β} {xs : List α} {b : β} {e : ε} :
    xs.foldlM step b = .error e ↔
      ∃ us x vs c, xs = us ++ x :: vs ∧ us.foldlM step b = .ok c ∧ step c x = .error e := by
  refine ⟨?_, ?_⟩
  · intro h
    induction xs generalizing b with
    | nil => exact absurd h (by simp [pure, Except.pure])
    | cons x xs ih =>
      rw [List.foldlM_cons] at h
      cases hx : step b x with
      | error e' =>
        rw [hx] at h
        exact ⟨[], x, xs, b, rfl, rfl, hx.trans h⟩
      | ok c =>
        rw [hx] at h
        obtain ⟨us, y, vs, c', rfl, hus, hy⟩ := ih h
        refine ⟨x :: us, y, vs, c', rfl, ?_, hy⟩
        rw [List.foldlM_cons, hx]
        exact hus
  · intro h'
    obtain ⟨us, x, vs, c, rfl, hus, hx⟩ := h'
    rw [List.foldlM_append, hus]
    show (x :: vs).foldlM step c = _
    rw [List.foldlM_cons, hx]
    rfl

namespace Builder

open Node

variable {φ : Type}

/-! ### Closing what is open -/

/-- What a builder holds can be completed by closing its frames one by one. -/
theorem Holds.exists_root {b : Builder φ} {ps : List Placed} (h : Holds b ps) :
    ∃ qs nodes, Holds (⟨[], nodes⟩ : Builder φ) (ps ++ qs) := by
  obtain ⟨frames, nodes⟩ := b
  induction frames generalizing nodes ps with
  | nil => exact ⟨[], nodes, by rwa [List.append_nil]⟩
  | cons frame frames ih =>
    have hadd : Builder.add ⟨frame :: frames, nodes⟩ ⟨.closing frame.delimiter, 0⟩ =
        .ok ⟨frames, .group (some frame.delimiter) nodes.reverse :: frame.before⟩ := by
      simp [Builder.add, closeAt]
    obtain ⟨qs, root, hroot⟩ := ih _ (h.add hadd)
    rw [List.append_assoc] at hroot
    exact ⟨_, root, hroot⟩

theorem Holds.nested {nodes : List (Node φ)} {ps : List Placed}
    (h : Holds (⟨[], nodes⟩ : Builder φ) ps) : Nested (word ps) ∧ Shallow maxDepth (word ps) := by
  cases h with
  | root hf hd hps =>
    rw [word_eq hps, shallow_lexemesAll_iff (fencedAll_reverse.mpr hf), depthAll_reverse]
    exact ⟨nested_lexemesAll (fencedAll_reverse.mpr hf), hd⟩

theorem exists_word (w : List TokenKind) : ∃ ps : List Placed, word ps = w := by
  induction w with
  | nil => exact ⟨[], rfl⟩
  | cons k w ih =>
    obtain ⟨x, rfl⟩ := Lexeme.exists_tokenKind_eq k
    obtain ⟨ps, rfl⟩ := ih
    exact ⟨⟨x, 0⟩ :: ps, rfl⟩

/-- **A builder takes exactly the words that can be completed to a nested word.** -/
theorem foldlM_isOk_iff {ps : List Placed} :
    (∃ b : Builder φ, ps.foldlM add empty = .ok b) ↔ Extendable (word ps) := by
  refine ⟨?_, ?_⟩
  · intro h
    obtain ⟨b, hrun⟩ := h
    obtain ⟨qs, nodes, hroot⟩ := (holds_of_foldlM hrun).exists_root
    have hnested := hroot.nested
    rw [word_append] at hnested
    exact ⟨word qs, hnested⟩
  · intro h
    obtain ⟨v, hnested, hshallow⟩ := h
    obtain ⟨qs, rfl⟩ := exists_word v
    rw [← word_append] at hnested hshallow
    obtain ⟨t, hf, ht⟩ := exists_tree_of_nested (φ := φ) hnested (word_eq rfl).symm
    rw [word_eq ht.symm, shallow_lexemesAll_iff hf] at hshallow
    have hrun := foldlM_empty_eq_ok_iff.mpr ⟨hf, hshallow, ht.symm⟩
    rw [List.foldlM_append, bind_eq_ok_iff] at hrun
    obtain ⟨b, hb, _⟩ := hrun
    exact ⟨b, hb⟩

/-! ### The innermost open delimiter -/

def innermost? (b : Builder φ) : Option (Delimiter × Nat) :=
  b.frames.head?.map fun frame => (frame.delimiter, frame.openedAt)

theorem innermost_of_holds {b : Builder φ} {ps : List Placed} (h : Holds b ps) :
    Innermost (ps.map Placed.token) b.innermost? := by
  cases h with
  | root hf hd hps =>
    refine .none ?_
    rw [map_kind_map_token, word_eq hps]
    exact nested_lexemesAll (fencedAll_reverse.mpr hf)
  | inside d openedAt h hf hd hqs =>
    rw [List.map_append, List.map_cons]
    refine .some ?_
    rw [map_kind_map_token, word_eq hqs]
    exact nested_lexemesAll (fencedAll_reverse.mpr hf)

theorem length_frames_of_holds {b : Builder φ} {ps : List Placed} (h : Holds b ps) :
    opens (word ps) = closes (word ps) + b.frames.length := by
  induction h with
  | root hf hd hps =>
    rw [word_eq hps, (nested_lexemesAll (fencedAll_reverse.mpr hf)).opens_eq]
    rfl
  | @inside frames before nodes ps qs d openedAt _ hf _ hqs ih =>
    have hbody := (nested_lexemesAll (fencedAll_reverse.mpr hf)).opens_eq
    rw [← word_eq hqs] at hbody
    rw [word_append, word_cons, opens_append, closes_append, Lexeme.tokenKind, opens_opening,
      closes_opening, List.length_cons]
    simp only at ih
    omega

theorem frames_of_add_opening {b c : Builder φ} {p : Placed} {d : Delimiter}
    (hp : p.lexeme = .opening d) (h : b.add p = .ok c) :
    c.frames = ⟨d, p.start, b.nodes⟩ :: b.frames := by
  rcases add_eq_ok h with ⟨l, hl, _⟩ | ⟨d', hd, _, rfl⟩ | ⟨d', _, _, _, hd, _⟩
  · exact absurd (hp.symm.trans hl) (by simp)
  · rw [Lexeme.opening.inj (hp.symm.trans hd)]
  · exact absurd (hp.symm.trans hd) (by simp)

theorem frames_of_add_closing {b c : Builder φ} {p : Placed} {d : Delimiter}
    (hp : p.lexeme = .closing d) (h : b.add p = .ok c) :
    ∃ openedAt before, b.frames = ⟨d, openedAt, before⟩ :: c.frames := by
  rcases add_eq_ok h with ⟨l, hl, _⟩ | ⟨d', hd, _⟩ | ⟨d', openedAt, before, frames, hd, hb, rfl⟩
  · exact absurd (hp.symm.trans hl) (by simp)
  · exact absurd (hp.symm.trans hd) (by simp)
  · rw [Lexeme.closing.inj (hp.symm.trans hd)]
    exact ⟨openedAt, before, hb⟩

/-- **A nested word leaves the open delimiters as they are.** -/
theorem frames_of_nested {w : List TokenKind} (h : Nested w) {ps : List Placed} (hw : word ps = w)
    {b c : Builder φ} (hrun : ps.foldlM add b = .ok c) : c.frames = b.frames := by
  induction h generalizing ps b c with
  | nil =>
    obtain rfl := List.map_eq_nil_iff.mp hw
    cases hrun
    rfl
  | other ho hc _ ih =>
    obtain ⟨p, qs, rfl, rfl, hqs⟩ := List.map_eq_cons_iff.mp hw
    obtain ⟨l, hl⟩ := Lexeme.eq_leaf_of_tokenKind ho hc
    rw [List.foldlM_cons, bind_eq_ok_iff] at hrun
    obtain ⟨b', hadd, hrun⟩ := hrun
    rw [add, hl] at hadd
    cases hadd
    have hframes := ih hqs hrun
    exact hframes
  | pair d _ _ ihv ihw =>
    obtain ⟨p, rs, rfl, hp, hrs⟩ := List.map_eq_cons_iff.mp hw
    obtain ⟨vs, zs, rfl, hvs, hzs⟩ := List.map_eq_append_iff.mp hrs
    obtain ⟨q, ws, rfl, hq, hws⟩ := List.map_eq_cons_iff.mp hzs
    rw [List.foldlM_cons, bind_eq_ok_iff] at hrun
    obtain ⟨b₁, hopen, hrun⟩ := hrun
    rw [List.foldlM_append, bind_eq_ok_iff] at hrun
    obtain ⟨b₂, hbody, hrun⟩ := hrun
    rw [List.foldlM_cons, bind_eq_ok_iff] at hrun
    obtain ⟨b₃, hclose, hrest⟩ := hrun
    -- The frame that the opening delimiter pushes is the one that the closing delimiter takes away.
    have hpush := frames_of_add_opening (Lexeme.eq_opening_of_tokenKind hp) hopen
    obtain ⟨openedAt, before, hpop⟩ := frames_of_add_closing (Lexeme.eq_closing_of_tokenKind hq) hclose
    rw [ihv hvs hbody, hpush] at hpop
    rw [ihw hws hrest, (List.cons.inj hpop).2]

/-- **The innermost frame is the innermost open delimiter.** -/
theorem innermost?_eq {ps : List Placed} {b : Builder φ} {o : Option (Delimiter × Nat)}
    (hrun : ps.foldlM add empty = .ok b) (h : Innermost (ps.map Placed.token) o) :
    b.innermost? = o := by
  generalize hts : ps.map Placed.token = ts at h
  cases h with
  | none hn =>
    rw [← hts, map_kind_map_token] at hn
    rw [innermost?, frames_of_nested hn rfl hrun]
    rfl
  | @some us vs d span hn =>
    obtain ⟨before, rs, rfl, rfl, hrs⟩ := List.map_eq_append_iff.mp hts
    obtain ⟨p, behind, rfl, hp, rfl⟩ := List.map_eq_cons_iff.mp hrs
    rw [map_kind_map_token] at hn
    rw [List.foldlM_append, bind_eq_ok_iff] at hrun
    obtain ⟨b₁, _, hrun⟩ := hrun
    rw [List.foldlM_cons, bind_eq_ok_iff] at hrun
    obtain ⟨b₂, hopen, hrest⟩ := hrun
    have hkind : p.lexeme.tokenKind = .opening d := congrArg Token.kind hp
    have hstart : p.start = span.start := congrArg (fun t => t.span.start) hp
    rw [innermost?, frames_of_nested hn rfl hrest,
      frames_of_add_opening (Lexeme.eq_opening_of_tokenKind hkind) hopen, ← hstart]
    rfl

end Builder

end LosslessSql
