import LosslessSql.Node.Path
import LosslessSql.Proofs.RoundTrip

/-!
# Pieces of a tree

A piece of a tree is a run of neighbours in one of its groups, or in the bare sequence at its root.  Taken
out, it loses what stood around it: the lexeme that ended its last one, the delimiters of the group.  None
of this was needed to read it, since being canonical is a matter of the nodes and of each two neighbours,
and at the end of a text every lexeme ends.

* `CanonicalAll.of_infix`: a run of neighbours in a canonical sequence is canonical.
* `Canonical.of_get?`: what stands in a slot of a canonical node is canonical, and nested no deeper.
* `CanonicalTree.of_get?`: so are the nodes of every group in a canonical tree.
* `parse_renderAll_of_infix`: **every piece of a tree that was read is read back from its own text.**
-/

namespace LosslessSql

namespace Node

variable {φ : Type}

theorem CanonicalAll.of_infix {ns run : List (Node φ)} (h : CanonicalAll ns) (hrun : run <:+: ns) :
    CanonicalAll run := by
  refine ⟨?_, h.siblings.infix hrun⟩
  intro n hn
  exact h.nodes n (hrun.subset hn)

theorem depth_le_depthAll {ns : List (Node φ)} {n : Node φ} (h : n ∈ ns) : n.depth ≤ depthAll ns :=
  depthAll_le_iff.mp (Nat.le_refl _) n h

theorem depthAll_le_of_subset {ns run : List (Node φ)} (h : run ⊆ ns) : depthAll run ≤ depthAll ns := by
  refine depthAll_le_iff.mpr ?_
  intro n hn
  exact depth_le_depthAll (h hn)

/-- **What stands in a slot of a canonical node is canonical, and nested no deeper.** -/
theorem Canonical.of_get? {n m : Node φ} {path : Path} (h : n.Canonical)
    (hget : n.get? path = some m) : m.Canonical ∧ m.depth ≤ n.depth := by
  induction path generalizing n with
  | nil =>
    obtain rfl : n = m := Option.some.inj hget
    exact ⟨h, Nat.le_refl _⟩
  | cons i path ih =>
    cases h with
    | leaf hw => exact absurd hget (by simp [get?])
    | fence d hnodes _ _ =>
      obtain ⟨child, hchild, hrest⟩ := Option.bind_eq_some_iff.mp hget
      have hmem := List.mem_of_getElem? hchild
      obtain ⟨hm, hdepth⟩ := ih (hnodes child hmem) hrest
      have hle := depth_le_depthAll hmem
      refine ⟨hm, ?_⟩
      rw [depth_fence]
      omega

end Node

open Node

variable {φ : Type}

/-- **The nodes of every group in a canonical tree are a canonical tree.**  The bare sequence at the root
is no node that could be canonical, so the first step of a path is taken apart from the others. -/
theorem CanonicalTree.of_get? {t children : List (Node φ)} {path : Path} {fence : Option Delimiter}
    (h : CanonicalTree t) (hget : (Node.group none t).get? path = some (.group fence children)) :
    CanonicalTree children := by
  cases path with
  | nil =>
    obtain ⟨_, rfl⟩ := Node.group.inj (Option.some.inj hget)
    exact h
  | cons i path =>
    obtain ⟨n, hn, hrest⟩ := Option.bind_eq_some_iff.mp hget
    have hmem := List.mem_of_getElem? hn
    obtain ⟨hgroup, hdepth⟩ := (h.nodes n hmem).of_get? hrest
    have hle : n.depth ≤ maxDepth := (depth_le_depthAll hmem).trans h.shallow
    cases fence with
    | none => cases hgroup
    | some d =>
      rw [depth_fence] at hdepth
      exact ⟨(canonical_fence_iff.mp hgroup).1, by omega⟩

variable [Fragment φ]

/-- **Every piece of a tree that was read is read back from its own text**: any run of neighbours in any
group, be it empty, one node or all of them. -/
theorem parse_renderAll_of_infix {source : String} {t : List (Node φ)} (h : parse source = .ok t)
    {path : Path} {fence : Option Delimiter} {children run : List (Node φ)}
    (hget : (Node.group none t).get? path = some (.group fence children)) (hrun : run <:+: children) :
    parse (renderAll run) = .ok run := by
  have hchildren := (canonicalTree_of_parse h).of_get? hget
  have hdepth : depthAll run ≤ maxDepth :=
    (depthAll_le_of_subset hrun.subset).trans hchildren.shallow
  exact parse_renderAll_eq_ok_iff.mpr ⟨hchildren.toCanonicalAll.of_infix hrun, hdepth⟩

/-- A line comment taken out of a group, without the line break that ended it. -/
theorem parse_renderAll_lone_comment :
    ∃ t children run : List (Node Snippet), parse "é(a--x\n)" = .ok t ∧
      (Node.group none t).get? [1] = some (.group (some .paren) children) ∧ run <:+: children ∧
      renderAll run = "a--x" ∧ parse (renderAll run) = .ok run := by
  have hparse : parse (φ := Snippet) "é(a--x\n)" = .ok [.leaf (.text "é"), .group (some .paren)
      [.leaf (.text "a"), .leaf (.lineComment "x"), .leaf (.space "\n")]] := by
    with_unfolding_all rfl
  have hget : (Node.group none [.leaf (.text "é"), .group (some .paren)
      [.leaf (.text "a"), .leaf (.lineComment "x"), .leaf (.space "\n")]]).get? [1] =
        some (.group (some .paren)
          [.leaf (φ := Snippet) (.text "a"), .leaf (.lineComment "x"), .leaf (.space "\n")]) := rfl
  have hrun : [Node.leaf (.text "a"), .leaf (.lineComment "x")] <:+:
      [Node.leaf (φ := Snippet) (.text "a"), .leaf (.lineComment "x"), .leaf (.space "\n")] :=
    ⟨[], [Node.leaf (.space "\n")], rfl⟩
  exact ⟨_, _, _, hparse, hget, hrun, rfl, parse_renderAll_of_infix hparse hget hrun⟩

end LosslessSql
