import LosslessSql.Node.Basic
import LosslessSql.Proofs.Lexeme.Sequence

/-!
# The lexemes of a tree

A tree read from left to right is a sequence of lexemes: its leaves, and the delimiters around its
groups.  Bare groups leave no trace in that sequence and fragments are no lexemes at all, so a tree can
be told from its lexemes only if it has neither: it is then called fenced.

* `Node.lexemes`, `Node.Fenced`, `Node.depth`: the lexemes, fenced trees, the deepest nesting.
* `Node.ind`: induction over a node through its children.
* `spelled_lexemesAll`: the lexemes of a fenced tree spell its text.
-/

namespace LosslessSql.Node

variable {φ : Type}

/-- Induction over nodes: what holds of the children of a group may be used for the group. -/
theorem ind {motive : Node φ → Prop} (leaf : ∀ l, motive (.leaf l))
    (fragment : ∀ f, motive (.fragment f))
    (group : ∀ fence children, (∀ n ∈ children, motive n) → motive (.group fence children)) :
    ∀ n, motive n
  | .leaf l => leaf l
  | .fragment f => fragment f
  | .group fence children =>
    group fence children fun n _ => ind leaf fragment group n

mutual

/-- The lexemes of a node from left to right.  A fragment has none. -/
def lexemes : Node φ → List Lexeme
  | .leaf l => [.leaf l]
  | .fragment _ => []
  | .group fence children =>
    (fence.map .opening).toList ++ (lexemesAll children ++ (fence.map .closing).toList)

def lexemesAll : List (Node φ) → List Lexeme
  | [] => []
  | n :: ns => lexemes n ++ lexemesAll ns

end

mutual

/-- No fragment and no bare group anywhere. -/
def Fenced : Node φ → Prop
  | .leaf _ => True
  | .fragment _ => False
  | .group fence children => fence.isSome = true ∧ FencedAll children

def FencedAll : List (Node φ) → Prop
  | [] => True
  | n :: ns => Fenced n ∧ FencedAll ns

end

mutual

/-- The largest number of fences around one place of a node. -/
def depth : Node φ → Nat
  | .leaf _ => 0
  | .fragment _ => 0
  | .group fence children => depthAll children + if fence.isSome then 1 else 0

def depthAll : List (Node φ) → Nat
  | [] => 0
  | n :: ns => max (depth n) (depthAll ns)

end

@[simp] theorem lexemesAll_append (as bs : List (Node φ)) :
    lexemesAll (as ++ bs) = lexemesAll as ++ lexemesAll bs := by
  induction as with
  | nil => rfl
  | cons n ns ih => rw [List.cons_append, lexemesAll, lexemesAll, ih, List.append_assoc]

theorem lexemesAll_concat (ns : List (Node φ)) (n : Node φ) :
    lexemesAll (ns ++ [n]) = lexemesAll ns ++ n.lexemes := by
  rw [lexemesAll_append, lexemesAll, lexemesAll, List.append_nil]

theorem fencedAll_iff {ns : List (Node φ)} : FencedAll ns ↔ ∀ n ∈ ns, n.Fenced := by
  induction ns with
  | nil => simp [FencedAll]
  | cons n ns ih => rw [FencedAll, ih, List.forall_mem_cons]

theorem depthAll_le_iff {ns : List (Node φ)} {k : Nat} :
    depthAll ns ≤ k ↔ ∀ n ∈ ns, n.depth ≤ k := by
  induction ns with
  | nil => simp [depthAll]
  | cons n ns ih => rw [depthAll, Nat.max_le, ih, List.forall_mem_cons]

theorem fencedAll_append {as bs : List (Node φ)} :
    FencedAll (as ++ bs) ↔ FencedAll as ∧ FencedAll bs := by
  simp only [fencedAll_iff, List.forall_mem_append]

theorem depthAll_append (as bs : List (Node φ)) :
    depthAll (as ++ bs) = max (depthAll as) (depthAll bs) := by
  induction as with
  | nil => exact (Nat.zero_max _).symm
  | cons n ns ih => rw [List.cons_append, depthAll, depthAll, ih, Nat.max_assoc]

@[simp] theorem fencedAll_reverse {ns : List (Node φ)} : FencedAll ns.reverse ↔ FencedAll ns := by
  simp only [fencedAll_iff, List.mem_reverse]

@[simp] theorem depthAll_reverse (ns : List (Node φ)) : depthAll ns.reverse = depthAll ns := by
  apply Nat.le_antisymm
  · exact depthAll_le_iff.mpr fun n hn => depthAll_le_iff.mp (Nat.le_refl _) n (List.mem_reverse.mp hn)
  · exact depthAll_le_iff.mpr fun n hn => depthAll_le_iff.mp (Nat.le_refl _) n (List.mem_reverse.mpr hn)

theorem lexemes_fence (d : Delimiter) (children : List (Node φ)) :
    lexemes (.group (some d) children) = .opening d :: (lexemesAll children ++ [.closing d]) := rfl

theorem depth_fence (d : Delimiter) (children : List (Node φ)) :
    depth (.group (some d) children) = depthAll children + 1 := rfl

/-! ### The lexemes spell the text -/

variable [Fragment φ]

theorem spelled_lexemesAll_of_forall {ns : List (Node φ)}
    (h : ∀ n ∈ ns, spelled n.lexemes = n.spelling) : spelled (lexemesAll ns) = spellAll ns := by
  induction ns with
  | nil => rfl
  | cons n ns ih =>
    rw [List.forall_mem_cons] at h
    rw [lexemesAll, spelled_append, spellAll, h.1, ih h.2]

theorem spelled_lexemes {n : Node φ} (h : n.Fenced) : spelled n.lexemes = n.spelling := by
  induction n using ind with
  | leaf l => rw [lexemes, spelled_cons, spelled_nil, List.append_nil, Lexeme.spelling, spelling]
  | fragment f => exact absurd h (by simp [Fenced])
  | group fence children ih =>
    obtain ⟨hfence, hchildren⟩ := h
    obtain ⟨d, rfl⟩ := Option.isSome_iff_exists.mp hfence
    have hbody := spelled_lexemesAll_of_forall fun n hn => ih n hn (fencedAll_iff.mp hchildren n hn)
    rw [lexemes_fence, spelled_cons, spelled_append, hbody, spelled_cons, spelled_nil,
      List.append_nil, spelling]
    rfl

/-- **The lexemes of a fenced tree spell its text.** -/
theorem spelled_lexemesAll {ns : List (Node φ)} (h : FencedAll ns) :
    spelled (lexemesAll ns) = spellAll ns :=
  spelled_lexemesAll_of_forall fun n hn => spelled_lexemes (fencedAll_iff.mp h n hn)

end LosslessSql.Node
