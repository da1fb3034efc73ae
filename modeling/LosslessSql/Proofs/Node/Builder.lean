import LosslessSql.Node.Builder
import LosslessSql.Proofs.Node.Lexemes

/-!
# What a builder holds

A builder that has taken some lexemes holds all of them: those before each open delimiter in the frame
of that delimiter, and those behind the innermost one in its nodes.  `Builder.Holds` says so, and
`holds_of_foldlM` shows that every run keeps it.  In the other direction `foldlM_add_lexemesAll` feeds
the lexemes of a tree to a builder and gets the tree.

* `add_eq_ok`, `add_eq_error`: all that one lexeme can do to a builder.
* `foldlM_empty_eq_ok_iff`: a builder with nothing open at the end has built the tree whose lexemes it
  took.
-/

namespace LosslessSql.Builder

open Node

variable {φ : Type}

/-! ### One lexeme -/

theorem add_eq_ok {b b' : Builder φ} {p : Placed} (h : b.add p = .ok b') :
    (∃ l, p.lexeme = .leaf l ∧ b' = ⟨b.frames, .leaf l :: b.nodes⟩) ∨
    (∃ d, p.lexeme = .opening d ∧ b.frames.length < maxDepth ∧
      b' = ⟨⟨d, p.start, b.nodes⟩ :: b.frames, []⟩) ∨
    (∃ d openedAt before frames, p.lexeme = .closing d ∧ b.frames = ⟨d, openedAt, before⟩ :: frames ∧
      b' = ⟨frames, .group (some d) b.nodes.reverse :: before⟩) := by
  unfold add at h
  split at h
  · next l hl =>
    cases h
    exact Or.inl ⟨l, hl, rfl⟩
  · next d hd =>
    unfold openAt at h
    split at h
    · next hlt =>
      cases h
      exact Or.inr (Or.inl ⟨d, hd, hlt, rfl⟩)
    · exact absurd h (by simp)
  · next d hd =>
    unfold closeAt at h
    split at h
    · exact absurd h (by simp)
    · next frame frames hframes =>
      split at h
      · next hsame =>
        cases h
        subst hsame
        exact Or.inr (Or.inr ⟨frame.delimiter, frame.openedAt, frame.before, frames, hd, hframes, rfl⟩)
      · exact absurd h (by simp)

theorem add_eq_error {b : Builder φ} {p : Placed} {e : ParseError} (h : b.add p = .error e) :
    (∃ d, p.lexeme = .opening d ∧ maxDepth ≤ b.frames.length ∧
      e = .nestingTooDeep maxDepth p.start) ∨
    (∃ d, p.lexeme = .closing d ∧ b.frames = [] ∧ e = .unexpectedClosing d.closing none p.start) ∨
    (∃ d frame frames, p.lexeme = .closing d ∧ b.frames = frame :: frames ∧ frame.delimiter ≠ d ∧
      e = .unexpectedClosing d.closing (some frame.delimiter.closing) p.start) := by
  unfold add at h
  split at h
  · exact absurd h (by simp)
  · next d hd =>
    unfold openAt at h
    split at h
    · exact absurd h (by simp)
    · next hge =>
      cases h
      exact Or.inl ⟨d, hd, Nat.le_of_not_lt hge, rfl⟩
  · next d hd =>
    unfold closeAt at h
    split at h
    · next hframes =>
      cases h
      exact Or.inr (Or.inl ⟨d, hd, hframes, rfl⟩)
    · next frame frames hframes =>
      split at h
      · exact absurd h (by simp)
      · next hne =>
        cases h
        exact Or.inr (Or.inr ⟨d, frame, frames, hd, hframes, hne, rfl⟩)

/-! ### The lexemes of a tree -/

theorem foldlM_add_lexemesAll_of_forall {ns : List (Node φ)}
    (h : ∀ n ∈ ns, ∀ (b : Builder φ) (ps : List Placed), b.frames.length + n.depth ≤ maxDepth →
      ps.map Placed.lexeme = n.lexemes → ps.foldlM add b = .ok ⟨b.frames, n :: b.nodes⟩)
    {b : Builder φ} {ps : List Placed} (hdepth : b.frames.length + depthAll ns ≤ maxDepth)
    (hps : ps.map Placed.lexeme = lexemesAll ns) :
    ps.foldlM add b = .ok ⟨b.frames, ns.reverse ++ b.nodes⟩ := by
  induction ns generalizing b ps with
  | nil =>
    rw [lexemesAll, List.map_eq_nil_iff] at hps
    subst hps
    rfl
  | cons n ns ih =>
    rw [List.forall_mem_cons] at h
    rw [lexemesAll, List.map_eq_append_iff] at hps
    obtain ⟨qs, rs, rfl, hqs, hrs⟩ := hps
    rw [depthAll] at hdepth
    rw [List.foldlM_append, h.1 b qs (by omega) hqs]
    show rs.foldlM add ⟨b.frames, n :: b.nodes⟩ = _
    rw [ih h.2 (by simp only; omega) hrs, List.reverse_cons, List.append_assoc]
    rfl

theorem foldlM_add_lexemes {n : Node φ} (hf : n.Fenced) {b : Builder φ} {ps : List Placed}
    (hdepth : b.frames.length + n.depth ≤ maxDepth) (hps : ps.map Placed.lexeme = n.lexemes) :
    ps.foldlM add b = .ok ⟨b.frames, n :: b.nodes⟩ := by
  induction n using Node.ind generalizing b ps with
  | leaf l =>
    rw [lexemes, List.map_eq_singleton_iff] at hps
    obtain ⟨p, rfl, hp⟩ := hps
    rw [List.foldlM_cons, add, hp]
    rfl
  | fragment f => exact absurd hf (by simp [Fenced])
  | group fence children ih =>
    obtain ⟨hfence, hchildren⟩ := hf
    obtain ⟨d, rfl⟩ := Option.isSome_iff_exists.mp hfence
    rw [lexemes_fence, List.map_eq_cons_iff] at hps
    obtain ⟨p, qs, rfl, hp, hqs⟩ := hps
    rw [List.map_eq_append_iff] at hqs
    obtain ⟨rs, last, rfl, hrs, hlast⟩ := hqs
    rw [List.map_eq_singleton_iff] at hlast
    obtain ⟨q, rfl, hq⟩ := hlast
    rw [depth_fence] at hdepth
    -- The opening delimiter puts a frame on the stack; the children are then one level deeper.
    have hopen : b.add p = .ok ⟨⟨d, p.start, b.nodes⟩ :: b.frames, []⟩ := by
      rw [add, hp]
      exact if_pos (by omega)
    have hbody : rs.foldlM add ⟨⟨d, p.start, b.nodes⟩ :: b.frames, []⟩ =
        .ok ⟨⟨d, p.start, b.nodes⟩ :: b.frames, children.reverse ++ []⟩ := by
      refine foldlM_add_lexemesAll_of_forall (fun n hn b' ps' hd' hps' => ?_) ?_ hrs
      · exact ih n hn (fencedAll_iff.mp hchildren n hn) hd' hps'
      · simp only [List.length_cons]
        omega
    have hclose : add ⟨⟨d, p.start, b.nodes⟩ :: b.frames, children.reverse ++ []⟩ q =
        .ok ⟨b.frames, .group (some d) children :: b.nodes⟩ := by
      rw [add, hq]
      simp [closeAt]
    rw [List.foldlM_cons, hopen]
    show (rs ++ [q]).foldlM add _ = _
    rw [List.foldlM_append, hbody]
    show [q].foldlM add _ = _
    rw [List.foldlM_cons, hclose]
    rfl

/-- **A builder that takes the lexemes of a fenced tree puts the tree behind what it has.** -/
theorem foldlM_add_lexemesAll {ns : List (Node φ)} (hf : FencedAll ns) {b : Builder φ}
    {ps : List Placed} (hdepth : b.frames.length + depthAll ns ≤ maxDepth)
    (hps : ps.map Placed.lexeme = lexemesAll ns) :
    ps.foldlM add b = .ok ⟨b.frames, ns.reverse ++ b.nodes⟩ :=
  foldlM_add_lexemesAll_of_forall
    (fun n hn _ _ hd hps => foldlM_add_lexemes (fencedAll_iff.mp hf n hn) hd hps) hdepth hps

/-! ### What has been taken -/

/-- A builder holds the lexemes `ps`: those before the innermost open delimiter in its frames, those
behind it in its nodes.  Nothing in it is nested too deeply. -/
inductive Holds : Builder φ → List Placed → Prop
  | root {nodes : List (Node φ)} {ps : List Placed} : FencedAll nodes → depthAll nodes ≤ maxDepth →
      ps.map Placed.lexeme = lexemesAll nodes.reverse → Holds ⟨[], nodes⟩ ps
  | inside {frames : List (Frame φ)} {before nodes : List (Node φ)} {ps qs : List Placed}
      (d : Delimiter) (openedAt : Nat) : Holds ⟨frames, before⟩ ps → FencedAll nodes →
      frames.length + 1 + depthAll nodes ≤ maxDepth →
      qs.map Placed.lexeme = lexemesAll nodes.reverse →
      Holds ⟨⟨d, openedAt, before⟩ :: frames, nodes⟩ (ps ++ ⟨.opening d, openedAt⟩ :: qs)

theorem holds_empty : Holds (φ := φ) empty [] :=
  .root trivial (Nat.zero_le _) rfl

theorem Holds.length_le {b : Builder φ} {ps : List Placed} (h : Holds b ps) :
    b.frames.length ≤ maxDepth := by
  cases h with
  | root => exact Nat.zero_le _
  | inside _ _ _ _ hd _ =>
    simp only [List.length_cons]
    omega

theorem Holds.push {frames : List (Frame φ)} {nodes : List (Node φ)} {ps xs : List Placed}
    (h : Holds ⟨frames, nodes⟩ ps) {n : Node φ} (hf : n.Fenced)
    (hd : frames.length + n.depth ≤ maxDepth) (hxs : xs.map Placed.lexeme = n.lexemes) :
    Holds ⟨frames, n :: nodes⟩ (ps ++ xs) := by
  cases h with
  | root hnodes hdepth hps =>
    refine .root ⟨hf, hnodes⟩ ?_ ?_
    · rw [depthAll]
      simp only [List.length_nil] at hd
      omega
    · rw [List.map_append, hps, hxs, List.reverse_cons, lexemesAll_concat]
  | inside d openedAt h hnodes hdepth hqs =>
    rw [List.append_assoc, List.cons_append]
    refine .inside d openedAt h ⟨hf, hnodes⟩ ?_ ?_
    · rw [depthAll]
      simp only [List.length_cons] at hd
      omega
    · rw [List.map_append, hqs, hxs, List.reverse_cons, lexemesAll_concat]

/-- **One more lexeme is held.** -/
theorem Holds.add {b b' : Builder φ} {ps : List Placed} {p : Placed} (h : Holds b ps)
    (hadd : b.add p = .ok b') : Holds b' (ps ++ [p]) := by
  rcases add_eq_ok hadd with ⟨l, hp, rfl⟩ | ⟨d, hp, hlt, rfl⟩ |
    ⟨d, openedAt, before, frames, hp, hb, rfl⟩
  · refine h.push trivial ?_ ?_
    · exact h.length_le
    · rw [List.map_singleton, hp, lexemes]
  · obtain ⟨x, start⟩ := p
    obtain rfl : x = .opening d := hp
    refine .inside d start h trivial ?_ rfl
    rw [depthAll]
    omega
  · obtain ⟨frames', nodes⟩ := b
    obtain rfl : frames' = ⟨d, openedAt, before⟩ :: frames := hb
    cases h with
    | inside _ _ h hnodes hdepth hqs =>
      rw [List.append_assoc]
      refine h.push ⟨rfl, fencedAll_reverse.mpr hnodes⟩ ?_ ?_
      · rw [depth_fence, depthAll_reverse]
        simp only
        omega
      · rw [List.cons_append, List.map_cons, List.map_append, hqs, List.map_singleton, hp,
          lexemes_fence]

/-- **What a run has taken is held.** -/
theorem Holds.foldlM {b b' : Builder φ} {ps qs : List Placed} (h : Holds b ps)
    (hrun : qs.foldlM Builder.add b = .ok b') : Holds b' (ps ++ qs) := by
  induction qs generalizing b ps with
  | nil =>
    cases hrun
    rwa [List.append_nil]
  | cons q qs ih =>
    rw [List.foldlM_cons] at hrun
    cases hadd : b.add q with
    | error e =>
      rw [hadd] at hrun
      exact absurd hrun (by simp [bind, Except.bind])
    | ok c =>
      rw [hadd] at hrun
      have hc := ih (h.add hadd) hrun
      rwa [List.append_assoc] at hc

theorem holds_of_foldlM {b : Builder φ} {ps : List Placed} (h : ps.foldlM add empty = .ok b) :
    Holds b ps :=
  holds_empty.foldlM h

/-- **A builder with nothing open has built exactly the tree whose lexemes it took.** -/
theorem foldlM_empty_eq_ok_iff {nodes : List (Node φ)} {ps : List Placed} :
    ps.foldlM add empty = .ok ⟨[], nodes.reverse⟩ ↔
      FencedAll nodes ∧ depthAll nodes ≤ maxDepth ∧ ps.map Placed.lexeme = lexemesAll nodes := by
  refine ⟨?_, ?_⟩
  · intro h
    cases holds_of_foldlM h with
    | root hf hd hps =>
      rw [fencedAll_reverse] at hf
      rw [depthAll_reverse] at hd
      rw [List.reverse_reverse] at hps
      exact ⟨hf, hd, hps⟩
  · intro hx
    obtain ⟨hf, hd, hps⟩ := hx
    rw [foldlM_add_lexemesAll hf (by simpa [empty] using hd) hps]
    simp [empty]

end LosslessSql.Builder
