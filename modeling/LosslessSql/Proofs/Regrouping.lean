import LosslessSql.Proofs.EndLeaves
import LosslessSql.Proofs.RoundTrip
import Mathlib.Logic.Relation

/-!
# Bare groups are transparent

A query that was read is put into another tree as a bare group.  So the same text can stand in many trees,
which differ in their bare groups alone: neighbours can be wrapped into one and a bare group can be spliced
into the nodes around it, in any group of the tree and any number of times.

Splicing every bare group there is (`flatAll`) brings all these trees to one: no step changes what comes of
it, and every tree can be brought there step by step, so

    Regrouped t t' ↔ flatAll t = flatAll t'.

What is read node after node, and of a group only through what is read of its nodes, can be read off that
one tree.  The text and the leaves are of this kind, and the rest follows from these two.

* `ReadThrough`, `ReadThrough.flatMap_flatAll`: **what is read through bare groups is the same without them.**
* `Regroups`, `Regrouped`: one step, and any number of steps.
* `Regroups.flatAll_eq`, `Regrouped.flatAll_eq`: no step, and so no number of steps, changes `flatAll`.
* `regrouped_iff_flatAll_eq`: **trees can be regrouped into each other exactly if they are the same without
  bare groups.**
* `regrouped_readAlike`: **trees that are regrouped cannot be told apart by reading them**, and the text of
  either is read as the canonical one among them.
-/

namespace LosslessSql

namespace Node

variable {φ : Type}

/-! ### Without bare groups -/

mutual

/-- The nodes that stand in the place of a node if all bare groups are spliced, itself included. -/
def flat : Node φ → List (Node φ)
  | .leaf l => [.leaf l]
  | .fragment f => [.fragment f]
  | .group none children => flatAll children
  | .group (some d) children => [.group (some d) (flatAll children)]

def flatAll : List (Node φ) → List (Node φ)
  | [] => []
  | n :: ns => flat n ++ flatAll ns

end

theorem flatAll_eq_flatMap (ns : List (Node φ)) : flatAll ns = ns.flatMap flat := by
  induction ns with
  | nil => rfl
  | cons n ns ih => rw [flatAll, List.flatMap_cons, ih]

@[simp] theorem flatAll_append (as bs : List (Node φ)) : flatAll (as ++ bs) = flatAll as ++ flatAll bs := by
  rw [flatAll_eq_flatMap, flatAll_eq_flatMap, flatAll_eq_flatMap, List.flatMap_append]

/-- A reading of nodes that goes through bare groups as if they were not there, and through fenced groups
with no regard to how their nodes are grouped. -/
structure ReadThrough {α : Type} (read : Node φ → List α) : Prop where
  bare : ∀ children, read (.group none children) = children.flatMap read
  fenced : ∀ d {as bs : List (Node φ)}, as.flatMap read = bs.flatMap read →
    read (.group (some d) as) = read (.group (some d) bs)

variable {α : Type} {read : Node φ → List α}

theorem ReadThrough.flatMap_flat (h : ReadThrough read) (n : Node φ) :
    n.flat.flatMap read = read n := by
  induction n using ind with
  | leaf l => exact List.flatMap_singleton read (.leaf l)
  | fragment f => exact List.flatMap_singleton read (.fragment f)
  | group fence children ih =>
    have hchildren : (flatAll children).flatMap read = children.flatMap read := by
      rw [flatAll_eq_flatMap, List.flatMap_assoc, List.flatMap_congr ih]
    cases fence with
    | none => rw [flat, hchildren, h.bare]
    | some d => rw [flat, List.flatMap_singleton, h.fenced d hchildren]

/-- **What is read through bare groups is the same without them.** -/
theorem ReadThrough.flatMap_flatAll (h : ReadThrough read) (ns : List (Node φ)) :
    (flatAll ns).flatMap read = ns.flatMap read := by
  rw [flatAll_eq_flatMap, List.flatMap_assoc]
  exact List.flatMap_congr fun n _ => h.flatMap_flat n

theorem readThrough_spelling [Fragment φ] : ReadThrough (φ := φ) spelling where
  bare children := by rw [spelling_bare, spellAll_eq_flatMap]
  fenced d as bs h := by rw [spelling, spelling, spellAll_eq_flatMap, spellAll_eq_flatMap, h]

theorem readThrough_leaves : ReadThrough (φ := φ) leaves where
  bare children := leavesAll_eq_flatMap children
  fenced d as bs h := by rw [leaves, leaves, leavesAll_eq_flatMap, leavesAll_eq_flatMap, h]

/-! ### Wrapping and splicing -/

/-- One step on the nodes of a tree: a run of neighbours, be it empty, is wrapped into a bare group, or a
bare group is spliced into the nodes around it, or such a step is made in one of the groups. -/
inductive Regroups : List (Node φ) → List (Node φ) → Prop
  | wrap (as run bs : List (Node φ)) : Regroups (as ++ run ++ bs) (as ++ .group none run :: bs)
  | splice (as run bs : List (Node φ)) : Regroups (as ++ .group none run :: bs) (as ++ run ++ bs)
  | inside (as bs : List (Node φ)) (fence : Option Delimiter) {children children' : List (Node φ)} :
      Regroups children children' →
        Regroups (as ++ .group fence children :: bs) (as ++ .group fence children' :: bs)

abbrev Regrouped : List (Node φ) → List (Node φ) → Prop :=
  Relation.ReflTransGen Regroups

theorem flat_group_congr (fence : Option Delimiter) {as bs : List (Node φ)} (h : flatAll as = flatAll bs) :
    flat (.group fence as) = flat (.group fence bs) := by
  cases fence with
  | none => exact h
  | some d => rw [flat, flat, h]

theorem flatAll_splice (as run bs : List (Node φ)) :
    flatAll (as ++ .group none run :: bs) = flatAll (as ++ run ++ bs) := by
  rw [flatAll_append, flatAll_append, flatAll_append, flatAll, flat, List.append_assoc]

/-- **A step does not show without bare groups.** -/
theorem Regroups.flatAll_eq {t t' : List (Node φ)} (h : Regroups t t') : flatAll t = flatAll t' := by
  induction h with
  | wrap as run bs => exact (flatAll_splice as run bs).symm
  | splice as run bs => exact flatAll_splice as run bs
  | inside as bs fence _ ih =>
    rw [flatAll_append, flatAll_append, flatAll, flatAll, flat_group_congr fence ih]

theorem Regrouped.flatAll_eq {t t' : List (Node φ)} (h : Regrouped t t') : flatAll t = flatAll t' := by
  induction h with
  | refl => rfl
  | tail _ hstep ih => exact ih.trans hstep.flatAll_eq

/-! ### Every tree can be brought to the one without bare groups -/

instance : Std.Symm (Regroups (φ := φ)) where
  symm t t' h := by
    induction h with
    | wrap as run bs => exact .splice as run bs
    | splice as run bs => exact .wrap as run bs
    | inside as bs fence _ ih => exact .inside as bs fence ih

theorem Regroups.append {t t' : List (Node φ)} (h : Regroups t t') (before behind : List (Node φ)) :
    Regroups (before ++ t ++ behind) (before ++ t' ++ behind) := by
  cases h with
  | wrap as run bs => simpa using Regroups.wrap (before ++ as) run (bs ++ behind)
  | splice as run bs => simpa using Regroups.splice (before ++ as) run (bs ++ behind)
  | inside as bs fence hstep => simpa using hstep.inside (before ++ as) (bs ++ behind) fence

theorem Regrouped.append {t t' : List (Node φ)} (h : Regrouped t t') (before behind : List (Node φ)) :
    Regrouped (before ++ t ++ behind) (before ++ t' ++ behind) :=
  h.lift (fun nodes => before ++ nodes ++ behind) fun _ _ hstep => hstep.append before behind

theorem Regrouped.inside {children children' : List (Node φ)} (h : Regrouped children children')
    (fence : Option Delimiter) : Regrouped [.group fence children] [.group fence children'] :=
  h.lift (fun nodes => [Node.group fence nodes]) fun _ _ hstep => hstep.inside [] [] fence

theorem regrouped_flatAll_of_forall {ns : List (Node φ)} (h : ∀ n ∈ ns, Regrouped [n] n.flat) :
    Regrouped ns (flatAll ns) := by
  induction ns with
  | nil => exact .refl
  | cons n ns ih =>
    rw [List.forall_mem_cons] at h
    -- First the first node, with the others behind it; then these, with what it became before them.
    have hfirst : Regrouped (n :: ns) (n.flat ++ ns) := h.1.append [] ns
    have hothers : Regrouped (n.flat ++ ns) (n.flat ++ flatAll ns) := by
      simpa using (ih h.2).append n.flat []
    exact hfirst.trans hothers

theorem regrouped_flat (n : Node φ) : Regrouped [n] n.flat := by
  induction n using ind with
  | leaf l => exact .refl
  | fragment f => exact .refl
  | group fence children ih =>
    have hchildren := regrouped_flatAll_of_forall ih
    cases fence with
    | none =>
      have hsplice : Regroups [.group none children] children := by
        simpa using Regroups.splice [] children []
      exact hchildren.head hsplice
    | some d => exact hchildren.inside (some d)

/-- Every tree can be brought to the one without bare groups. -/
theorem regrouped_flatAll (t : List (Node φ)) : Regrouped t (flatAll t) :=
  regrouped_flatAll_of_forall fun n _ => regrouped_flat n

/-- **Trees can be regrouped into each other exactly if they are the same without bare groups.** -/
theorem regrouped_iff_flatAll_eq {t t' : List (Node φ)} : Regrouped t t' ↔ flatAll t = flatAll t' := by
  refine ⟨Regrouped.flatAll_eq, ?_⟩
  intro h
  have hback : Regrouped (flatAll t') t' := symm (regrouped_flatAll t')
  rw [← h] at hback
  exact (regrouped_flatAll t).trans hback

example (f : φ) :
    Regrouped [.fragment f, .group (some .paren) [.group none [.group none [], .leaf .cast], .fragment f]]
      [.group none [], .group none [.fragment f, .group (some .paren) [.leaf .cast, .fragment f]]] :=
  regrouped_iff_flatAll_eq.mpr rfl

theorem Regrouped.flatMap_eq {t t' : List (Node φ)} (h : Regrouped t t') (hread : ReadThrough read) :
    t.flatMap read = t'.flatMap read := by
  rw [← hread.flatMap_flatAll t, h.flatAll_eq, hread.flatMap_flatAll]

end Node

/-! ### Trees that cannot be told apart -/

open Node

variable {φ : Type} [Fragment φ]

/-- Two trees that cannot be told apart by reading them, with `render` for the text of a tree, `leaves` for
its leaves from left to right, and `first` and `last` for the searches for the leaves at its ends. -/
structure ReadAlike {α : Type} (render : α → String) (leaves : α → List (Node φ))
    (first last : α → Option (Node φ)) (t t' : α) : Prop where
  render_eq : render t = render t'
  leaves_eq : leaves t = leaves t'
  first_eq : first t = first t'
  last_eq : last t = last t'
  parse_eq : parse (φ := φ) (render t) = parse (render t')

theorem readAlike_of_eq {n n' : Node φ} (hspelling : n.spelling = n'.spelling)
    (hleaves : n.leaves = n'.leaves) :
    ReadAlike Node.render Node.leaves firstLeaf? lastLeaf? n n' where
  render_eq := congrArg String.ofList hspelling
  leaves_eq := hleaves
  first_eq := by rw [firstLeaf?_eq, firstLeaf?_eq, hleaves]
  last_eq := by rw [lastLeaf?_eq, lastLeaf?_eq, hleaves]
  parse_eq := by rw [Node.render, Node.render, hspelling]

/-- **Bare groups are transparent**: trees that are regrouped cannot be told apart by reading them, be they
sequences or groups.  The text of either is read as the other exactly if that is canonical. -/
theorem regrouped_readAlike {t t' : List (Node φ)} (h : Regrouped t t') :
    ReadAlike renderAll leavesAll firstLeafAll? lastLeafAll? t t' ∧
    (∀ fence, ReadAlike Node.render Node.leaves firstLeaf? lastLeaf? (.group fence t) (.group fence t')) ∧
    (parse (renderAll t) = .ok t' ↔ CanonicalTree t') := by
  have hspelling : spellAll t = spellAll t' := by
    rw [spellAll_eq_flatMap, spellAll_eq_flatMap, h.flatMap_eq readThrough_spelling]
  have hleaves : leavesAll t = leavesAll t' := by
    rw [leavesAll_eq_flatMap, leavesAll_eq_flatMap, h.flatMap_eq readThrough_leaves]
  have hgroups : ∀ fence,
      ReadAlike Node.render Node.leaves firstLeaf? lastLeaf? (.group fence t) (.group fence t') := by
    intro fence
    refine readAlike_of_eq ?_ hleaves
    rw [spelling, spelling, hspelling]
  have hrender : renderAll t = renderAll t' := congrArg String.ofList hspelling
  refine ⟨?_, hgroups, ?_⟩
  · -- A sequence is searched for leaves like a bare group of its nodes.
    exact {
      render_eq := hrender
      leaves_eq := hleaves
      first_eq := (hgroups none).first_eq
      last_eq := (hgroups none).last_eq
      parse_eq := congrArg parse hrender }
  · rw [hrender]
    exact parse_renderAll_eq_ok_iff

/-- A sub-query that was read, put into a query as a bare group and behind an empty one, is read back as a
part of the query itself. -/
theorem regrouped_readAlike_subquery :
    ∃ subquery t t' : List (Node Snippet), parse "(b :p) as c" = .ok subquery ∧
      t = [.leaf (.text "a"), .leaf (.space " "), .group none (.group none [] :: subquery)] ∧
      t' = .leaf (.text "a") :: .leaf (.space " ") :: subquery ∧ Regrouped t t' ∧
      ReadAlike renderAll leavesAll firstLeafAll? lastLeafAll? t t' ∧ parse (renderAll t) = .ok t' := by
  obtain ⟨subquery, hsubquery, hwhole⟩ : ∃ subquery : List (Node Snippet),
      parse "(b :p) as c" = .ok subquery ∧
      parse "a (b :p) as c" = .ok (.leaf (.text "a") :: .leaf (.space " ") :: subquery) := by
    refine ⟨[.group (some .paren) [.leaf (.text "b"), .leaf (.space " "), .leaf (.named "p")],
      .leaf (.space " "), .leaf (.text "as"), .leaf (.space " "), .leaf (.text "c")], ?_, ?_⟩
    · with_unfolding_all rfl
    · with_unfolding_all rfl
  have hregrouped :
      Regrouped [.leaf (.text "a"), .leaf (.space " "), .group none (.group none [] :: subquery)]
        (.leaf (.text "a") :: .leaf (.space " ") :: subquery) := by
    rw [regrouped_iff_flatAll_eq]
    simp only [flatAll, flat, List.nil_append, List.append_nil]
  obtain ⟨hread, _, hparse⟩ := regrouped_readAlike hregrouped
  exact ⟨subquery, _, _, hsubquery, rfl, rfl, hregrouped, hread, hparse.mpr (canonicalTree_of_parse hwhole)⟩

end LosslessSql
