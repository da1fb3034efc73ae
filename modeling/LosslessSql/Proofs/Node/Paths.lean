import LosslessSql.Node.Path
import LosslessSql.Proofs.Node.Slots

/-!
# The paths to the slots of a tree

`Node.leaves` lists what stands in the leaf slots of a tree, `Node.leafSlots` lists where: the paths to
the leaves, from left to right.  A path names a slot for good, so it can be said of each slot what stands
in it before and after an edit, and of each group that it keeps its fence and the number of its nodes.

* `mem_leafSlots_iff`: the leaf slots are exactly the slots that hold no group.
* `pairwise_leafSlots`: **they are listed in the order of the document**, which is the lexicographic
  order of paths.
* `map_get?_fill`: **a filled tree holds in its leaf slots what was filled in**, in order.
* `exists_get?_fill`: every group of a tree stands in the filled tree as well, as long as it was.
* `mem_childSlots_iff`, `pairwise_childSlots`: the same for the slots directly under the root.
-/

namespace LosslessSql.Node

variable {φ : Type}

def LeafSlot (root : Node φ) (path : Path) : Prop :=
  ∃ n, root.get? path = some n ∧ n.isGroup = false

mutual

def leafSlots : Node φ → List Path
  | .leaf _ => [[]]
  | .fragment _ => [[]]
  | .group _ children => leafSlotsAll children

/-- The paths to the leaves of a sequence, each of which begins with the index of a node. -/
def leafSlotsAll : List (Node φ) → List Path
  | [] => []
  | n :: ns => (leafSlots n).map (0 :: ·) ++ (leafSlotsAll ns).map (List.modifyHead (· + 1))

end

/-! ### Which slots there are -/

theorem mem_leafSlotsAll {ns : List (Node φ)} {path : Path} :
    path ∈ leafSlotsAll ns ↔ ∃ i rest n, path = i :: rest ∧ ns[i]? = some n ∧ rest ∈ n.leafSlots := by
  induction ns generalizing path with
  | nil => simp [leafSlotsAll]
  | cons n ns ih =>
    rw [leafSlotsAll, List.mem_append, List.mem_map, List.mem_map]
    refine ⟨?_, ?_⟩
    · rintro (⟨rest, hrest, rfl⟩ | ⟨later, hlater, rfl⟩)
      · exact ⟨0, rest, n, rfl, rfl, hrest⟩
      · obtain ⟨i, rest, m, rfl, hm, hrest⟩ := ih.mp hlater
        exact ⟨i + 1, rest, m, rfl, hm, hrest⟩
    · rintro ⟨i, rest, m, rfl, hm, hrest⟩
      cases i with
      | zero =>
        obtain rfl : n = m := Option.some.inj hm
        exact Or.inl ⟨rest, hrest, rfl⟩
      | succ i => exact Or.inr ⟨i :: rest, ih.mpr ⟨i, rest, m, rfl, hm, hrest⟩, rfl⟩

theorem get?_cons_eq_some_iff {n m : Node φ} {i : Nat} {path : Path} :
    n.get? (i :: path) = some m ↔
      ∃ fence children child, n = .group fence children ∧ children[i]? = some child ∧
        child.get? path = some m := by
  cases n with
  | leaf l => simp [get?]
  | fragment f => simp [get?]
  | group fence children => simp [get?, Option.bind_eq_some_iff]

theorem get?_append (n : Node φ) (path rest : Path) :
    n.get? (path ++ rest) = (n.get? path).bind (get? rest) := by
  induction path generalizing n with
  | nil => rfl
  | cons i path ih =>
    cases n with
    | leaf l => rfl
    | fragment f => rfl
    | group fence children =>
      cases hchild : children[i]? with
      | none => simp [get?, hchild]
      | some child => simp [get?, hchild, ih]

/-- **The leaf slots are exactly the slots that hold no group.** -/
theorem mem_leafSlots_iff {n : Node φ} {path : Path} : path ∈ n.leafSlots ↔ n.LeafSlot path := by
  induction n using ind generalizing path with
  | leaf l => cases path <;> simp [leafSlots, LeafSlot, get?, isGroup, children?]
  | fragment f => cases path <;> simp [leafSlots, LeafSlot, get?, isGroup, children?]
  | group fence children ih =>
    rw [leafSlots, mem_leafSlotsAll]
    refine ⟨?_, ?_⟩
    · rintro ⟨i, rest, child, rfl, hchild, hrest⟩
      obtain ⟨m, hm, hleaf⟩ := (ih child (List.mem_of_getElem? hchild)).mp hrest
      exact ⟨m, get?_cons_eq_some_iff.mpr ⟨fence, children, child, rfl, hchild, hm⟩, hleaf⟩
    · rintro ⟨m, hm, hleaf⟩
      cases path with
      | nil =>
        obtain rfl := Option.some.inj hm
        exact absurd hleaf (by simp [isGroup, children?])
      | cons i rest =>
        obtain ⟨_, _, child, hgroup, hchild, hm⟩ := get?_cons_eq_some_iff.mp hm
        obtain ⟨rfl, rfl⟩ := group.inj hgroup
        exact ⟨i, rest, child, rfl, hchild, (ih child (List.mem_of_getElem? hchild)).mpr ⟨m, hm, hleaf⟩⟩

example : leafSlots (φ := Unit)
      (.group none [.leaf .cast, .group none [], .group (some .paren) [.fragment ()]]) =
    [[0], [2, 0]] := rfl

/-! ### The order of the document -/

theorem pairwise_leafSlotsAll_of_forall {ns : List (Node φ)}
    (h : ∀ n ∈ ns, n.leafSlots.Pairwise (· < ·)) : (leafSlotsAll ns).Pairwise (· < ·) := by
  induction ns with
  | nil => exact .nil
  | cons n ns ih =>
    rw [List.forall_mem_cons] at h
    rw [leafSlotsAll, List.pairwise_append, List.pairwise_map, List.pairwise_map]
    refine ⟨?_, ?_, ?_⟩
    · exact h.1.imp fun hlt => List.cons_lt_cons_iff.mpr (Or.inr ⟨rfl, hlt⟩)
    · refine (ih h.2).imp_of_mem ?_
      intro p q hp hq hlt
      obtain ⟨i, p, _, rfl, _⟩ := mem_leafSlotsAll.mp hp
      obtain ⟨j, q, _, rfl, _⟩ := mem_leafSlotsAll.mp hq
      rcases List.cons_lt_cons_iff.mp hlt with hij | ⟨rfl, hpq⟩
      · exact List.cons_lt_cons_iff.mpr (Or.inl (Nat.succ_lt_succ hij))
      · exact List.cons_lt_cons_iff.mpr (Or.inr ⟨rfl, hpq⟩)
    · intro p hp q hq
      obtain ⟨p, _, rfl⟩ := List.mem_map.mp hp
      obtain ⟨later, hlater, rfl⟩ := List.mem_map.mp hq
      obtain ⟨j, q, _, rfl, _⟩ := mem_leafSlotsAll.mp hlater
      exact List.cons_lt_cons_iff.mpr (Or.inl (Nat.succ_pos j))

/-- **The leaf slots are listed in the order of the document.** -/
theorem pairwise_leafSlots (n : Node φ) : n.leafSlots.Pairwise (· < ·) := by
  induction n using ind with
  | leaf l => exact List.pairwise_singleton _ _
  | fragment f => exact List.pairwise_singleton _ _
  | group fence children ih => exact pairwise_leafSlotsAll_of_forall ih

/-! ### What stands in the slots of a filled tree -/

theorem map_get?_leafSlotsAll_cons (fence : Option Delimiter) (n m : Node φ) (ns ms : List (Node φ)) :
    (leafSlotsAll (n :: ns)).map (fun path => (group fence (m :: ms)).get? path) =
      n.leafSlots.map (fun path => m.get? path) ++
        (leafSlotsAll ns).map (fun path => (group fence ms).get? path) := by
  rw [leafSlotsAll, List.map_append, List.map_map, List.map_map]
  congr 1
  refine List.map_congr_left ?_
  intro path hpath
  obtain ⟨i, rest, _, rfl, _⟩ := mem_leafSlotsAll.mp hpath
  rfl

theorem map_get?_fillAll_of_forall {ns : List (Node φ)} (fence : Option Delimiter)
    (h : ∀ n ∈ ns, ∀ vs, vs.length = n.leaves.length →
      n.leafSlots.map (fun path => (fill n vs).get? path) = vs.map some)
    {vs : List (Node φ)} (hvs : vs.length = (leavesAll ns).length) :
    (leafSlotsAll ns).map (fun path => (group fence (fillAll ns vs)).get? path) = vs.map some := by
  induction ns generalizing vs with
  | nil =>
    obtain rfl := List.length_eq_zero_iff.mp hvs
    rfl
  | cons n ns ih =>
    rw [List.forall_mem_cons] at h
    obtain ⟨xs, ys, rfl, hxs, hys⟩ := exists_eq_append_of_length hvs
    rw [fillAll_cons_append hxs, map_get?_leafSlotsAll_cons, h.1 xs hxs, ih h.2 hys, List.map_append]

/-- **A filled tree holds in its leaf slots what was filled in**, in order. -/
theorem map_get?_fill {n : Node φ} {vs : List (Node φ)} (hvs : vs.length = n.leaves.length) :
    n.leafSlots.map (fun path => (fill n vs).get? path) = vs.map some := by
  induction n using ind generalizing vs with
  | leaf l =>
    obtain ⟨v, rfl⟩ := List.length_eq_one_iff.mp hvs
    rfl
  | fragment f =>
    obtain ⟨v, rfl⟩ := List.length_eq_one_iff.mp hvs
    rfl
  | group fence children ih => exact map_get?_fillAll_of_forall fence (fun n hn vs h => ih n hn h) hvs

theorem map_get?_leafSlots (n : Node φ) :
    n.leafSlots.map (fun path => n.get? path) = n.leaves.map some := by
  have hfill : n.leafSlots.map (fun path => (fill n n.leaves).get? path) = n.leaves.map some :=
    map_get?_fill rfl
  rwa [fill_leaves] at hfill

/-! ### The groups of a filled tree -/

theorem length_fillAll (ns vs : List (Node φ)) : (fillAll ns vs).length = ns.length := by
  induction ns generalizing vs with
  | nil => rfl
  | cons n ns ih => rw [fillAll, List.length_cons, List.length_cons, ih]

theorem getElem?_fillAll {ns : List (Node φ)} {i : Nat} {n : Node φ} (h : ns[i]? = some n)
    (vs : List (Node φ)) : ∃ xs, (fillAll ns vs)[i]? = some (fill n xs) := by
  induction ns generalizing i vs with
  | nil => exact absurd h (by simp)
  | cons m ns ih =>
    cases i with
    | zero =>
      obtain rfl : m = n := Option.some.inj h
      exact ⟨_, rfl⟩
    | succ i => exact ih h _

/-- **Every group of a tree stands in the filled tree as well**, with its fence and as many nodes. -/
theorem exists_get?_fill {n : Node φ} {path : Path} {fence : Option Delimiter}
    {children : List (Node φ)} (h : n.get? path = some (.group fence children)) (vs : List (Node φ)) :
    ∃ children', (fill n vs).get? path = some (.group fence children') ∧
      children'.length = children.length := by
  induction path generalizing n vs with
  | nil =>
    obtain rfl := Option.some.inj h
    exact ⟨fillAll children vs, rfl, length_fillAll children vs⟩
  | cons i path ih =>
    obtain ⟨_, _, child, rfl, hchild, hrest⟩ := get?_cons_eq_some_iff.mp h
    obtain ⟨xs, hxs⟩ := getElem?_fillAll hchild vs
    obtain ⟨children', hget, hlength⟩ := ih hrest xs
    exact ⟨children', get?_cons_eq_some_iff.mpr ⟨_, _, _, rfl, hxs, hget⟩, hlength⟩

/-! ### The slots directly under the root -/

/-- A path that leads to a node directly under the root, or to the root itself if it is a leaf. -/
def ChildSlot (root : Node φ) (path : Path) : Prop :=
  if root.isGroup then path.length = 1 ∧ (root.get? path).isSome else path = []

def childSlots : Node φ → List Path
  | .group _ children => (List.range children.length).map ([·])
  | _ => [[]]

theorem mem_childSlots_iff {n : Node φ} {path : Path} : path ∈ n.childSlots ↔ n.ChildSlot path := by
  cases n with
  | leaf l => simp [childSlots, ChildSlot, isGroup, children?]
  | fragment f => simp [childSlots, ChildSlot, isGroup, children?]
  | group fence children =>
    simp only [childSlots, ChildSlot, isGroup, children?, List.mem_map, List.mem_range,
      Option.isSome_some, if_true, List.length_eq_one_iff]
    refine ⟨?_, ?_⟩
    · rintro ⟨i, hi, rfl⟩
      exact ⟨⟨i, rfl⟩, by simp [get?, hi]⟩
    · rintro ⟨⟨i, rfl⟩, hget⟩
      refine ⟨i, ?_, rfl⟩
      by_contra hi
      simp [get?, List.getElem?_eq_none (Nat.le_of_not_lt hi)] at hget

theorem pairwise_childSlots (n : Node φ) : n.childSlots.Pairwise (· < ·) := by
  cases n with
  | leaf l => exact List.pairwise_singleton _ _
  | fragment f => exact List.pairwise_singleton _ _
  | group fence children =>
    rw [childSlots, List.pairwise_map]
    exact List.pairwise_lt_range.imp fun hlt => List.cons_lt_cons_iff.mpr (Or.inl hlt)

theorem map_get?_childSlots (fence : Option Delimiter) (children : List (Node φ)) :
    (List.range children.length).map (fun i => (group fence children).get? [i]) =
      children.map some := by
  apply List.ext_getElem?
  intro i
  by_cases hi : i < children.length
  · simp [hi, get?]
  · simp [hi]

end LosslessSql.Node
