import LosslessSql.Proofs.Node.Canonical
import LosslessSql.Proofs.Parse
import Mathlib.Data.List.Forall2

/-!
# Equality is sound

Two trees are the same if they have the same shape and the same leaves, with the texts of the fragments in
the place of the fragments.  So put these texts there (`shown`): then two trees are the same exactly if they
are shown alike,

    a.same b = true ↔ a.shown = b.shown.

From this it is at once an equivalence, and whatever can be told from the tree as shown cannot tell two trees
apart that are the same: neither the text (`spelling_shown`) nor the leaves (`leaves_shown`).

* `same_iff_shown_eq`: **trees are the same exactly if they are shown alike.**
* `soundEquality_node`, `soundEquality_nodes`: equality is sound on nodes and on sequences of nodes.
* `beq_iff_eq_of_parse`: **trees that were read are the same exactly if their texts are.**
* `equality_sound`: all of this at once.
-/

namespace LosslessSql

instance : Fragment String where
  render text := text

namespace Node

variable {φ : Type} [Fragment φ]

/-! ### Trees as shown -/

mutual

/-- A node with the texts of the fragments in the place of the fragments. -/
def shown : Node φ → Node String
  | .leaf l => .leaf l
  | .fragment f => .fragment (Fragment.render f)
  | .group fence children => .group fence (shownAll children)

def shownAll : List (Node φ) → List (Node String)
  | [] => []
  | n :: ns => shown n :: shownAll ns

end

theorem shownAll_eq_map (ns : List (Node φ)) : shownAll ns = ns.map shown := by
  induction ns with
  | nil => rfl
  | cons n ns ih => rw [shownAll, List.map_cons, ih]

theorem shown_group (fence : Option Delimiter) (children : List (Node φ)) :
    (group fence children).shown = .group fence (children.map shown) := by
  rw [shown, shownAll_eq_map]

/-- **Trees are the same exactly if they are shown alike.** -/
theorem same_iff_shown_eq (a b : Node φ) : a.same b = true ↔ a.shown = b.shown := by
  induction a using ind generalizing b with
  | leaf l => cases b <;> simp [same, shown]
  | fragment f => cases b <;> simp [same, shown]
  | group fence children ih =>
    cases b with
    | leaf l => simp [same, shown]
    | fragment f => simp [same, shown]
    | group fence' bs =>
      rw [same, Bool.and_eq_true, beq_iff_eq, sameAll_eq_true_iff_of_forall ih, shown_group, shown_group,
        group.injEq]

theorem spelling_shown (n : Node φ) : n.shown.spelling = n.spelling := by
  induction n using ind with
  | leaf l => rfl
  | fragment f => rfl
  | group fence children ih =>
    rw [shown_group, spelling, spelling, spellAll_eq_flatMap, spellAll_eq_flatMap, List.flatMap_map,
      List.flatMap_congr ih]

theorem leaves_shown (n : Node φ) : n.shown.leaves = n.leaves.map shown := by
  induction n using ind with
  | leaf l => rfl
  | fragment f => rfl
  | group fence children ih =>
    rw [shown_group, leaves, leaves, leavesAll_eq_flatMap, leavesAll_eq_flatMap, List.flatMap_map,
      List.map_flatMap, List.flatMap_congr ih]

end Node

/-! ### Sound equality -/

open Node

variable {φ : Type} [Fragment φ]

/-- What is to be expected of an equality of trees, with `render` for the text and `leaves` for the leaves of
a tree from left to right. -/
structure SoundEquality {α : Type} [BEq α] (render : α → String) (leaves : α → List (Node φ)) :
    Prop where
  equivalence : Equivalence fun a b : α => (a == b) = true
  render_eq : ∀ a b : α, (a == b) = true → render a = render b
  leaves_same : ∀ a b : α, (a == b) = true →
    List.Forall₂ (fun m n : Node φ => (m == n) = true) (leaves a) (leaves b)
  eq_of_same : ∀ a b : α, (∀ f, .fragment f ∉ leaves a) → (a == b) = true → a = b

theorem SoundEquality.of_injective {α β : Type} [BEq α] [BEq β] {render : β → String}
    {leaves : β → List (Node φ)} (h : SoundEquality render leaves) {f : α → β} (hf : f.Injective)
    (hbeq : ∀ a b, (a == b) = (f a == f b)) :
    SoundEquality (fun a => render (f a)) (fun a => leaves (f a)) where
  equivalence := by
    simp only [hbeq]
    exact h.equivalence.comap f
  render_eq a b hab := h.render_eq _ _ ((hbeq a b).symm.trans hab)
  leaves_same a b hab := h.leaves_same _ _ ((hbeq a b).symm.trans hab)
  eq_of_same a b ha hab := hf (h.eq_of_same _ _ ha ((hbeq a b).symm.trans hab))

theorem Node.beq_iff_shown_eq (a b : Node φ) : (a == b) = true ↔ a.shown = b.shown :=
  same_iff_shown_eq a b

theorem soundEquality_node : SoundEquality (Node.render (φ := φ)) Node.leaves where
  equivalence := by
    simp only [beq_iff_shown_eq]
    exact eq_equivalence.comap shown
  render_eq a b hab := by
    rw [Node.render, Node.render, ← spelling_shown a, (beq_iff_shown_eq a b).mp hab, spelling_shown]
  leaves_same a b hab := by
    have hleaves : List.Forall₂ Eq (a.leaves.map shown) (b.leaves.map shown) := by
      rw [List.forall₂_eq_eq_eq, ← leaves_shown, (beq_iff_shown_eq a b).mp hab, leaves_shown]
    rw [List.forall₂_map_left_iff, List.forall₂_map_right_iff] at hleaves
    simpa only [beq_iff_shown_eq] using hleaves
  eq_of_same a b ha hab := (same_eq_true_iff ha b).mp hab

/-- A sequence is compared, spelled and searched for leaves like a bare group of its nodes. -/
theorem soundEquality_nodes : SoundEquality (Node.renderAll (φ := φ)) Node.leavesAll := by
  have hbeq (as bs : List (Node φ)) : (as == bs) = (group none as == group none bs) :=
    beq_eq_sameAll as bs
  have hrender (ns : List (Node φ)) : (group none ns).render = renderAll ns := by
    rw [Node.render, spelling_bare, renderAll]
  have hsound := soundEquality_node.of_injective (f := group none) (fun _ _ h => (group.inj h).2) hbeq
  simp only [hrender] at hsound
  exact hsound

/-- **Trees that were read are the same exactly if their texts are.** -/
theorem beq_iff_eq_of_parse {s₁ s₂ : String} {t₁ t₂ : List (Node φ)} (h₁ : parse s₁ = .ok t₁)
    (h₂ : parse s₂ = .ok t₂) : (t₁ == t₂) = true ↔ s₁ = s₂ := by
  refine ⟨?_, ?_⟩
  · intro hsame
    have hrender := soundEquality_nodes.render_eq t₁ t₂ hsame
    rw [eq_renderAll_of_parse h₁, eq_renderAll_of_parse h₂, hrender]
  · rintro rfl
    obtain rfl : t₁ = t₂ := Except.ok.inj (h₁.symm.trans h₂)
    exact soundEquality_nodes.equivalence.refl t₁

/-- **Equality is sound**: on nodes, with fragments compared by their texts, on sequences, and on the trees
of two texts, which are the same exactly if the texts are. -/
theorem equality_sound (φ : Type) [Fragment φ] :
    (∀ f g : φ, (Node.fragment f == Node.fragment g) = true ↔ Fragment.render f = Fragment.render g) ∧
    SoundEquality (Node.render (φ := φ)) Node.leaves ∧
    SoundEquality (Node.renderAll (φ := φ)) Node.leavesAll ∧
    ∀ (s₁ s₂ : String) (t₁ t₂ : List (Node φ)), parse s₁ = .ok t₁ → parse s₂ = .ok t₂ →
      ((t₁ == t₂) = true ↔ s₁ = s₂) := by
  refine ⟨?_, soundEquality_node, soundEquality_nodes, ?_⟩
  · intro f g
    rw [beq_iff_shown_eq, shown, shown, fragment.injEq]
  · intro s₁ s₂ t₁ t₂ h₁ h₂
    exact beq_iff_eq_of_parse h₁ h₂

end LosslessSql
