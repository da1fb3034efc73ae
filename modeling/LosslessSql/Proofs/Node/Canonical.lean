import LosslessSql.Node.Equality
import LosslessSql.Node.Leaves
import LosslessSql.Proofs.Lexeme.Neighbours
import LosslessSql.Proofs.Node.Lexemes

/-!
# Canonical trees

Trees can be built by hand and edited, and then their text may read as another tree.  `Canonical` is
what a tree must satisfy for its text to read as itself: fenced groups and well-formed leaves only,
and no two siblings that run into each other.  A line comment may not stand last in a group, whose
closing delimiter it would swallow.

* `canonicalAll_iff`: **a sequence of nodes is canonical exactly if it is fenced, its lexemes are well
  formed, and each of them may precede the next.**
* `same_eq_true_iff`, `beq_iff_eq_of_fencedAll`: **a tree without fragments is the same only as itself**,
  and so is a fenced one.
-/

namespace LosslessSql.Node

variable {φ : Type}

/-- Whether two siblings stay apart; groups begin and end with delimiters, which only a line comment
swallows. -/
def mayPrecede : Node φ → Node φ → Bool
  | .leaf l, .leaf m => l.mayPrecede m
  | .leaf (.lineComment _), _ => false
  | _, _ => true

/-- A node that is read back from its text, its nesting apart: a well-formed leaf, or a fenced group of
such nodes in which no two siblings run into each other and no line comment stands last. -/
inductive Canonical : Node φ → Prop
  | leaf {l : Leaf} : l.WellFormed → Canonical (.leaf l)
  | fence (d : Delimiter) {children : List (Node φ)} : (∀ n ∈ children, Canonical n) →
      (children.IsChain fun m n => m.mayPrecede n = true) →
      (∀ n ∈ children.getLast?, n.kind ≠ .lineComment) → Canonical (.group (some d) children)

/-- A sequence of canonical nodes in which no two neighbours run into each other. -/
structure CanonicalAll (ns : List (Node φ)) : Prop where
  nodes : ∀ n ∈ ns, n.Canonical
  siblings : ns.IsChain fun m n => m.mayPrecede n = true

/-! ### The first and the last lexeme of a node -/

def first : Node φ → Option Lexeme
  | .leaf l => some (.leaf l)
  | .fragment _ => none
  | .group fence _ => fence.map .opening

def last : Node φ → Option Lexeme
  | .leaf l => some (.leaf l)
  | .fragment _ => none
  | .group fence _ => fence.map .closing

theorem head?_lexemes {n : Node φ} (h : n.Fenced) : n.lexemes.head? = n.first := by
  cases n with
  | leaf l => rfl
  | fragment f => exact absurd h (by simp [Fenced])
  | group fence children =>
    obtain ⟨d, rfl⟩ := Option.isSome_iff_exists.mp h.1
    rfl

theorem getLast?_lexemes {n : Node φ} (h : n.Fenced) : n.lexemes.getLast? = n.last := by
  cases n with
  | leaf l => rfl
  | fragment f => exact absurd h (by simp [Fenced])
  | group fence children =>
    obtain ⟨d, rfl⟩ := Option.isSome_iff_exists.mp h.1
    rw [lexemes_fence, ← List.cons_append, List.getLast?_concat]
    rfl

theorem lexemes_ne_nil {n : Node φ} (h : n.Fenced) : n.lexemes ≠ [] := by
  cases n with
  | leaf l => exact List.cons_ne_nil _ _
  | fragment f => exact absurd h (by simp [Fenced])
  | group fence children =>
    obtain ⟨d, rfl⟩ := Option.isSome_iff_exists.mp h.1
    exact List.cons_ne_nil _ _

/-- **Siblings stay apart exactly if the lexemes between them do.** -/
theorem mayPrecede_iff {m n : Node φ} (hm : m.Fenced) (hn : n.Fenced) :
    (∀ x ∈ m.lexemes.getLast?, ∀ y ∈ n.lexemes.head?, x.mayPrecede y = true) ↔
      m.mayPrecede n = true := by
  rw [getLast?_lexemes hm, head?_lexemes hn]
  cases m with
  | leaf l =>
    cases n with
    | leaf k => simp [first, last, mayPrecede, Lexeme.mayPrecede]
    | fragment f => exact absurd hn (by simp [Fenced])
    | group fence children =>
      obtain ⟨d, rfl⟩ := Option.isSome_iff_exists.mp hn.1
      cases l <;> simp [first, last, mayPrecede, Lexeme.mayPrecede]
  | fragment f => exact absurd hm (by simp [Fenced])
  | group fence children =>
    obtain ⟨d, rfl⟩ := Option.isSome_iff_exists.mp hm.1
    simp [last, mayPrecede, Lexeme.mayPrecede]

theorem mayPrecede_closing_iff {n : Node φ} (h : n.Fenced) (d : Delimiter) :
    (∀ x ∈ n.lexemes.getLast?, x.mayPrecede (.closing d) = true) ↔ n.kind ≠ .lineComment := by
  rw [getLast?_lexemes h]
  cases n with
  | leaf l => cases l <;> simp [last, kind, Leaf.nodeKind, Lexeme.mayPrecede]
  | fragment f => exact absurd h (by simp [Fenced])
  | group fence children =>
    obtain ⟨c, rfl⟩ := Option.isSome_iff_exists.mp h.1
    simp [last, kind, Lexeme.mayPrecede]

/-! ### The lexemes of a sequence -/

theorem lexemesAll_eq_flatten (ns : List (Node φ)) : lexemesAll ns = (ns.map lexemes).flatten := by
  induction ns with
  | nil => rfl
  | cons n ns ih => rw [lexemesAll, List.map_cons, List.flatten_cons, ih]

theorem mem_lexemesAll {ns : List (Node φ)} {x : Lexeme} :
    x ∈ lexemesAll ns ↔ ∃ n ∈ ns, x ∈ n.lexemes := by
  simp [lexemesAll_eq_flatten]

theorem isChain_lexemesAll_iff {ns : List (Node φ)} (h : FencedAll ns) :
    ((lexemesAll ns).IsChain fun x y => x.mayPrecede y = true) ↔
      (∀ n ∈ ns, n.lexemes.IsChain fun x y => x.mayPrecede y = true) ∧
        ns.IsChain fun m n => m.mayPrecede n = true := by
  have hne : [] ∉ ns.map lexemes := by
    rintro hnil
    obtain ⟨n, hn, he⟩ := List.mem_map.mp hnil
    exact lexemes_ne_nil (fencedAll_iff.mp h n hn) he
  rw [lexemesAll_eq_flatten, List.isChain_flatten hne, List.forall_mem_map, List.isChain_map]
  refine and_congr_right fun _ => List.IsChain.iff_of_mem_imp fun m n hm hn => ?_
  exact mayPrecede_iff (fencedAll_iff.mp h m hm) (fencedAll_iff.mp h n hn)

theorem isChain_fence_iff {children : List (Node φ)} (h : FencedAll children) (d : Delimiter) :
    ((lexemes (.group (some d) children)).IsChain fun x y => x.mayPrecede y = true) ↔
      ((lexemesAll children).IsChain fun x y => x.mayPrecede y = true) ∧
        ∀ n ∈ children.getLast?, n.kind ≠ .lineComment := by
  have hopen : ∀ y ∈ (lexemesAll children ++ [Lexeme.closing d]).head?,
      (Lexeme.opening d).mayPrecede y = true := fun y _ => rfl
  rw [lexemes_fence, List.isChain_cons, and_iff_right hopen, List.isChain_append]
  refine and_congr_right fun _ => ?_
  rw [and_iff_right (List.IsChain.singleton _)]
  rcases List.eq_nil_or_concat children with rfl | ⟨before, n, rfl⟩
  · simp [lexemesAll]
  · have hn : n.Fenced := fencedAll_iff.mp h n (by simp)
    rw [List.concat_eq_append, lexemesAll_concat, List.getLast?_append_of_ne_nil _ (lexemes_ne_nil hn),
      List.getLast?_concat]
    simp only [List.head?_cons, Option.mem_some_iff, forall_eq']
    exact mayPrecede_closing_iff hn d

/-! ### Canonical trees by their lexemes -/

theorem canonical_fence_iff {d : Delimiter} {children : List (Node φ)} :
    Canonical (.group (some d) children) ↔
      CanonicalAll children ∧ ∀ n ∈ children.getLast?, n.kind ≠ .lineComment := by
  refine ⟨?_, ?_⟩
  · intro h
    cases h with
    | fence _ hnodes hsiblings hlast => exact ⟨⟨hnodes, hsiblings⟩, hlast⟩
  · intro hx
    obtain ⟨⟨hnodes, hsiblings⟩, hlast⟩ := hx
    exact .fence d hnodes hsiblings hlast

theorem canonicalAll_iff_of_forall {ns : List (Node φ)}
    (h : ∀ n ∈ ns, n.Canonical ↔ n.Fenced ∧ (∀ x ∈ n.lexemes, x.WellFormed) ∧
      n.lexemes.IsChain fun x y => x.mayPrecede y = true) :
    CanonicalAll ns ↔ FencedAll ns ∧ (∀ x ∈ lexemesAll ns, x.WellFormed) ∧
      (lexemesAll ns).IsChain fun x y => x.mayPrecede y = true := by
  refine ⟨?_, ?_⟩
  · intro h'
    obtain ⟨hnodes, hsiblings⟩ := h'
    have hf : FencedAll ns := fencedAll_iff.mpr fun n hn => ((h n hn).mp (hnodes n hn)).1
    refine ⟨hf, ?_, (isChain_lexemesAll_iff hf).mpr ⟨?_, hsiblings⟩⟩
    · intro x hx
      obtain ⟨n, hn, hx⟩ := mem_lexemesAll.mp hx
      exact ((h n hn).mp (hnodes n hn)).2.1 x hx
    · intro n hn
      exact ((h n hn).mp (hnodes n hn)).2.2
  · intro h'
    obtain ⟨hf, hw, hchain⟩ := h'
    obtain ⟨hnodes, hsiblings⟩ := (isChain_lexemesAll_iff hf).mp hchain
    refine ⟨fun n hn => (h n hn).mpr ⟨fencedAll_iff.mp hf n hn, ?_, hnodes n hn⟩, hsiblings⟩
    intro x hx
    exact hw x (mem_lexemesAll.mpr ⟨n, hn, hx⟩)

theorem canonical_iff (n : Node φ) :
    n.Canonical ↔ n.Fenced ∧ (∀ x ∈ n.lexemes, x.WellFormed) ∧
      n.lexemes.IsChain fun x y => x.mayPrecede y = true := by
  induction n using ind with
  | leaf l =>
    refine ⟨?_, ?_⟩
    · intro h
      cases h with
      | leaf hw =>
        refine ⟨trivial, ?_, List.IsChain.singleton _⟩
        simpa [lexemes, Lexeme.WellFormed] using hw
    · intro h'
      obtain ⟨_, hw, _⟩ := h'
      exact .leaf (hw (.leaf l) (by simp [lexemes]))
  | fragment f =>
    refine iff_of_false ?_ (fun h => h.1)
    intro h
    cases h
  | group fence children ih =>
    cases fence with
    | none =>
      refine iff_of_false ?_ (fun h => absurd h.1.1 (by simp))
      intro h
      cases h
    | some d =>
      rw [canonical_fence_iff, canonicalAll_iff_of_forall ih]
      refine ⟨?_, ?_⟩
      · intro h'
        obtain ⟨⟨hf, hw, hchain⟩, hlast⟩ := h'
        refine ⟨⟨rfl, hf⟩, ?_, (isChain_fence_iff hf d).mpr ⟨hchain, hlast⟩⟩
        intro x hx
        rw [lexemes_fence, List.mem_cons, List.mem_append, List.mem_singleton] at hx
        rcases hx with rfl | hx | rfl
        · trivial
        · exact hw x hx
        · trivial
      · intro h'
        obtain ⟨⟨_, hf⟩, hw, hchain⟩ := h'
        obtain ⟨hchain, hlast⟩ := (isChain_fence_iff hf d).mp hchain
        refine ⟨⟨hf, fun x hx => hw x ?_, hchain⟩, hlast⟩
        rw [lexemes_fence]
        exact List.mem_cons_of_mem _ (List.mem_append_left _ hx)

/-- **A sequence of nodes is canonical exactly if it is fenced, its lexemes are well formed, and each of
them may precede the next.** -/
theorem canonicalAll_iff {ns : List (Node φ)} :
    CanonicalAll ns ↔ FencedAll ns ∧ (∀ x ∈ lexemesAll ns, x.WellFormed) ∧
      (lexemesAll ns).IsChain fun x y => x.mayPrecede y = true :=
  canonicalAll_iff_of_forall fun n _ => canonical_iff n

/-! ### Trees without fragments are the same only if they are equal -/

theorem Fenced.fragment_notMem_leaves {n : Node φ} (h : n.Fenced) (f : φ) : .fragment f ∉ n.leaves := by
  induction n using ind with
  | leaf l => simp [leaves]
  | fragment g => exact absurd h (by simp [Fenced])
  | group fence children ih =>
    intro hmem
    rw [leaves, leavesAll_eq_flatMap] at hmem
    obtain ⟨n, hn, hf⟩ := List.mem_flatMap.mp hmem
    exact ih n hn (fencedAll_iff.mp h.2 n hn) hf

variable [Fragment φ]

theorem sameAll_eq_true_iff_of_forall {α : Type} {f : Node φ → α} {as bs : List (Node φ)}
    (h : ∀ a ∈ as, ∀ b, a.same b = true ↔ f a = f b) :
    sameAll as bs = true ↔ as.map f = bs.map f := by
  induction as generalizing bs with
  | nil => cases bs <;> simp [sameAll]
  | cons a as ih =>
    rw [List.forall_mem_cons] at h
    cases bs with
    | nil => simp [sameAll]
    | cons b bs =>
      rw [sameAll, Bool.and_eq_true, h.1 b, ih h.2, List.map_cons, List.map_cons, List.cons.injEq]

/-- **A tree without fragments is the same only as itself.** -/
theorem same_eq_true_iff {a : Node φ} (ha : ∀ f, .fragment f ∉ a.leaves) (b : Node φ) :
    a.same b = true ↔ a = b := by
  induction a using ind generalizing b with
  | leaf l => cases b <;> simp [same]
  | fragment f => exact absurd List.mem_cons_self (ha f)
  | group fence children ih =>
    have hnone : ∀ n ∈ children, ∀ f, .fragment f ∉ n.leaves := by
      intro n hn f hf
      apply ha f
      rw [leaves, leavesAll_eq_flatMap]
      exact List.mem_flatMap.mpr ⟨n, hn, hf⟩
    have hall (bs : List (Node φ)) : sameAll children bs = true ↔ children = bs := by
      rw [sameAll_eq_true_iff_of_forall (f := id) fun a hmem => ih a hmem (hnone a hmem), List.map_id,
        List.map_id]
    cases b with
    | leaf l => simp [same]
    | fragment f => simp [same]
    | group fence' bs => rw [same, Bool.and_eq_true, hall bs, beq_iff_eq, group.injEq]

theorem beq_eq_sameAll (as bs : List (Node φ)) : (as == bs) = sameAll as bs := by
  induction as generalizing bs with
  | nil => cases bs <;> rfl
  | cons a as ih =>
    cases bs with
    | nil => rfl
    | cons b bs =>
      rw [List.cons_beq_cons, sameAll, ih]
      rfl

/-- **A fenced tree is the same only as itself.** -/
theorem beq_iff_eq_of_fencedAll {as : List (Node φ)} (h : FencedAll as) (bs : List (Node φ)) :
    (as == bs) = true ↔ as = bs := by
  have hnodes : ∀ a ∈ as, ∀ b, a.same b = true ↔ a = b := by
    intro a ha
    exact same_eq_true_iff (fencedAll_iff.mp h a ha).fragment_notMem_leaves
  rw [beq_eq_sameAll, sameAll_eq_true_iff_of_forall (f := id) hnodes, List.map_id, List.map_id]

end LosslessSql.Node
