import LosslessSql.Proofs.Node.Paths

/-!
# What the walks do

A walk is told here by what its visitor sees and by what stands in the slots of the tree afterwards, with
no word of how the walk goes through the tree.

A visitor that is taken along a list is in one state after another: it is given a node, leaves one in its
place, and passes its state on to the next visit, unless it stops (`Visits`).  The list of a walk is that
of the nodes which stood in its slots before, in the order of the document.  Where the visitor was, the
slot holds what was left there; behind the visit that stopped the walk, every slot holds what it held; and
a group that is neither in such a slot nor below one keeps its fence and the number of its nodes
(`Walked`).  What the visitor leaves is not walked into: its slot holds it as it was left, and no node of
it is among those that the visitor is given.

* `visitEach_visits`: a visit along a list gives its nodes to the visitor, one after another, until one
  visit stops it.
* `SlotsHold.walked`: so does a walk whose outcome is that of the list, put into slots.
* `walks_along_slots`: **the deep and the shallow walk obey one law**, the one with the leaf slots and the
  other with the slots directly under the root.
-/

namespace LosslessSql

open Node

variable {φ σ ε : Type}

/-! ### Visits one after another -/

/-- From a state `s` on, a visitor is given the nodes of a list in turn, leaves those of another in their
places, and ends in a state, with an error if the last visit stopped it. -/
inductive Visits (visit : Visitor φ σ ε) :
    σ → List (Node φ) → List (Node φ) → σ → Option ε → Prop
  | done (s : σ) : Visits visit s [] [] s none
  | stop {s s' : σ} {n v : Node φ} {e : ε} (h : visit s n = ⟨v, s', some e⟩) :
      Visits visit s [n] [v] s' (some e)
  | next {s s' s'' : σ} {n v : Node φ} {given left : List (Node φ)} {e? : Option ε}
      (h : visit s n = ⟨v, s', none⟩) (others : Visits visit s' given left s'' e?) :
      Visits visit s (n :: given) (v :: left) s'' e?

theorem Visits.length_eq {visit : Visitor φ σ ε} {s s' : σ} {given left : List (Node φ)} {e? : Option ε}
    (h : Visits visit s given left s' e?) : left.length = given.length := by
  induction h with
  | done s => rfl
  | stop h => rfl
  | next h others ih => rw [List.length_cons, List.length_cons, ih]

/-- **A visit along a list gives its nodes to the visitor until one visit stops it**, and keeps the nodes
behind. -/
theorem visitEach_visits (visit : Visitor φ σ ε) (s : σ) (ns : List (Node φ)) :
    ∃ given left later, ns = given ++ later ∧ (visitEach visit s ns).value = left ++ later ∧
      Visits visit s given left (visitEach visit s ns).state (visitEach visit s ns).stop ∧
      ((visitEach visit s ns).stop = none → later = []) := by
  induction ns generalizing s with
  | nil => exact ⟨[], [], [], rfl, rfl, .done s, fun _ => rfl⟩
  | cons n ns ih =>
    cases hstop : (visit s n).stop with
    | some e =>
      rw [visitEach_cons_of_stop hstop]
      refine ⟨[n], [(visit s n).value], ns, rfl, rfl, .stop ?_, ?_⟩
      · rw [← hstop]
      · intro h
        exact absurd h (by simp)
    | none =>
      obtain ⟨given, left, later, hns, hvalue, hvisits, hlater⟩ := ih (visit s n).state
      rw [visitEach_cons_of_none hstop]
      refine ⟨n :: given, (visit s n).value :: left, later, ?_, ?_, .next ?_ hvisits, hlater⟩
      · rw [hns, List.cons_append]
      · show (visit s n).value :: _ = _
        rw [hvalue, List.cons_append]
      · rw [← hstop]

theorem visitEach_steady_of_none {visit : Visitor φ σ ε} {s : σ} {ns : List (Node φ)}
    (h : (visitEach visit s ns).stop = none) : visitEach visit.steady s ns = visitEach visit s ns := by
  induction ns generalizing s with
  | nil => rfl
  | cons n ns ih =>
    cases hstop : (visit s n).stop with
    | some e =>
      rw [visitEach_cons_of_stop hstop] at h
      exact absurd h (by simp)
    | none =>
      rw [visitEach_cons_of_none hstop] at h ⊢
      rw [visitEach_cons_of_none rfl]
      show (visitEach visit.steady (visit s n).state ns).map _ = _
      rw [ih h]
      rfl

/-! ### Slots and what is put into them -/

/-- Every group of a tree stands in another one at the same path, with its fence and as many nodes, unless
it is in one of the slots `edited` or below one. -/
def KeepsGroups (edited : List Path) (before after : Node φ) : Prop :=
  ∀ path fence children, before.get? path = some (.group fence children) →
    (∀ slot ∈ edited, ¬ slot <+: path) →
    ∃ children', after.get? path = some (.group fence children') ∧ children'.length = children.length

/-- The slots `slots` of a tree hold the nodes `ns`, and `put` puts others into them. -/
structure SlotsHold (root : Node φ) (slots : List Path) (ns : List (Node φ))
    (put : List (Node φ) → Node φ) : Prop where
  held : slots.map (fun path => root.get? path) = ns.map some
  filled : ∀ vs, vs.length = ns.length → slots.map (fun path => (put vs).get? path) = vs.map some
  keeps : ∀ vs, vs.length = ns.length → KeepsGroups slots root (put vs)

/-- What a walk has done to a tree after the visits to the slots `seen`, with the slots `unseen` behind
them. -/
structure Walked (visit : Visitor φ σ ε) (s : σ) (root : Node φ) (out : Visited (Node φ) σ ε)
    (seen unseen : List Path) (given left : List (Node φ)) : Prop where
  held : seen.map (fun path => root.get? path) = given.map some
  visits : Visits visit s given left out.state out.stop
  filled : seen.map (fun path => out.value.get? path) = left.map some
  kept : ∀ path ∈ unseen, out.value.get? path = root.get? path
  /-- There are such slots only if the visitor stopped. -/
  complete : out.stop = none → unseen = []
  keeps : KeepsGroups seen root out.value

theorem keepsGroups_of_kept {root after : Node φ} {seen unseen : List Path}
    (hkeeps : KeepsGroups (seen ++ unseen) root after)
    (hkept : ∀ path ∈ unseen, after.get? path = root.get? path) : KeepsGroups seen root after := by
  intro path fence children hpath hseen
  by_cases hunseen : ∃ slot ∈ unseen, slot <+: path
  · obtain ⟨slot, hslot, rest, rfl⟩ := hunseen
    refine ⟨children, ?_, rfl⟩
    rw [get?_append, hkept slot hslot, ← get?_append, hpath]
  · refine hkeeps path fence children hpath ?_
    intro slot hslot hprefix
    rcases List.mem_append.mp hslot with h | h
    · exact hseen slot h hprefix
    · exact hunseen ⟨slot, h, hprefix⟩

/-- **A walk that puts the outcome of a list into slots** takes its visitor to these slots. -/
theorem SlotsHold.walked {root : Node φ} {slots : List Path} {ns : List (Node φ)}
    {put : List (Node φ) → Node φ} (h : SlotsHold root slots ns put) (visit : Visitor φ σ ε) (s : σ) :
    ∃ seen unseen given left, slots = seen ++ unseen ∧
      Walked visit s root ((visitEach visit s ns).map put) seen unseen given left := by
  obtain ⟨given, left, later, rfl, hvalue, hvisits, hlater⟩ := visitEach_visits visit s ns
  have hheld := h.held
  rw [List.map_append] at hheld
  obtain ⟨seen, unseen, rfl, hseen, hunseen⟩ := List.map_eq_append_iff.mp hheld
  have hfilled := h.filled _ (length_visitEach visit s (given ++ later))
  rw [hvalue, List.map_append, List.map_append] at hfilled
  have hlength : seen.length = left.length := by
    rw [hvisits.length_eq, ← List.length_map, hseen, List.length_map]
  obtain ⟨hleft, hkept⟩ := List.append_inj hfilled (by rw [List.length_map, List.length_map, hlength])
  rw [← hvalue, ← hunseen] at hkept
  have hkept := List.map_inj_left.mp hkept
  refine ⟨seen, unseen, given, left, rfl, ⟨hseen, hvisits, ?_, hkept, ?_, ?_⟩⟩
  · show seen.map (fun path => (put (visitEach visit s (given ++ later)).value).get? path) = _
    rw [hvalue, hleft]
  · intro hstop
    rw [hlater hstop, List.map_nil] at hunseen
    exact List.map_eq_nil_iff.mp hunseen
  · exact keepsGroups_of_kept (h.keeps _ (length_visitEach visit s (given ++ later))) hkept

/-! ### The leaf slots -/

theorem slotsHold_leaves (n : Node φ) : SlotsHold n n.leafSlots n.leaves (fill n) where
  held := map_get?_leafSlots n
  filled _ hvs := map_get?_fill hvs
  keeps vs _ _ _ _ hpath _ := exists_get?_fill hpath vs

/-- No group stands in a leaf slot or below one, so all groups are kept where only leaf slots are
edited. -/
theorem KeepsGroups.of_leafSlots {before after : Node φ} {edited : List Path}
    (h : KeepsGroups edited before after) (hedited : ∀ slot ∈ edited, before.LeafSlot slot) :
    KeepsGroups [] before after := by
  intro path fence children hpath _
  refine h path fence children hpath ?_
  rintro slot hslot ⟨rest, rfl⟩
  obtain ⟨n, hn, hleaf⟩ := hedited slot hslot
  rw [get?_append, hn, Option.bind_some] at hpath
  cases rest with
  | nil =>
    obtain rfl := Option.some.inj hpath
    exact absurd hleaf (by simp [isGroup, children?])
  | cons i rest =>
    obtain ⟨_, _, _, rfl, _⟩ := get?_cons_eq_some_iff.mp hpath
    exact absurd hleaf (by simp [isGroup, children?])

/-! ### The slots directly under the root -/

def replaceVisible : Node φ → List (Node φ) → Node φ
  | .group fence _, vs => .group fence vs
  | n, vs => vs.headD n

theorem slotsHold_root (n : Node φ) : SlotsHold n [[]] [n] (fun vs => vs.headD n) where
  held := rfl
  filled vs hvs := by
    obtain ⟨v, rfl⟩ := List.length_eq_one_iff.mp hvs
    rfl
  keeps vs _ path _ _ _ hslots := absurd List.nil_prefix (hslots [] (List.mem_singleton_self []))

theorem slotsHold_children (fence : Option Delimiter) (children : List (Node φ)) :
    SlotsHold (.group fence children) (childSlots (.group fence children)) children (.group fence) where
  held := by
    rw [childSlots, List.map_map]
    exact map_get?_childSlots fence children
  filled vs hvs := by
    rw [childSlots, List.map_map, ← hvs]
    exact map_get?_childSlots fence vs
  keeps vs hvs path fence' children' hpath hslots := by
    cases path with
    | nil =>
      obtain ⟨rfl, rfl⟩ := group.inj (Option.some.inj hpath)
      exact ⟨vs, rfl, hvs⟩
    | cons i rest =>
      -- The path leads through one of the slots.
      obtain ⟨_, _, child, hgroup, hchild, _⟩ := get?_cons_eq_some_iff.mp hpath
      obtain ⟨rfl, rfl⟩ := group.inj hgroup
      obtain ⟨hi, _⟩ := List.getElem?_eq_some_iff.mp hchild
      exact absurd (List.prefix_append [i] rest)
        (hslots [i] (List.mem_map.mpr ⟨i, List.mem_range.mpr hi, rfl⟩))

theorem slotsHold_visible (n : Node φ) : SlotsHold n n.childSlots n.visible (replaceVisible n) := by
  cases n with
  | leaf l => exact slotsHold_root _
  | fragment f => exact slotsHold_root _
  | group fence children => exact slotsHold_children fence children

theorem walkChildren_eq (visit : Visitor φ σ ε) (s : σ) (n : Node φ) :
    walkChildren visit s n = (visitEach visit s n.visible).map (replaceVisible n) := by
  cases n with
  | leaf l =>
    show visit s (.leaf l) = (visitEach visit s [.leaf l]).map _
    rw [visitEach_singleton]
    rfl
  | fragment f =>
    show visit s (.fragment f) = (visitEach visit s [.fragment f]).map _
    rw [visitEach_singleton]
    rfl
  | group fence children => rfl

/-! ### The law of the walks -/

abbrev Walk (φ : Type) := ∀ {σ ε : Type}, Visitor φ σ ε → σ → Node φ → Visited (Node φ) σ ε

/-- The law of a walk along the slots of every tree that satisfy `Slot`, listed by `slots`, in which `look`
sees the same nodes. -/
structure WalksAlong (walk : Walk φ) (look : Node φ → List (Node φ)) (Slot : Node φ → Path → Prop)
    (slots : Node φ → List Path) : Prop where
  mem_slots_iff : ∀ root path, path ∈ slots root ↔ Slot root path
  ordered : ∀ root, (slots root).Pairwise (· < ·)
  look_eq : ∀ root, (slots root).map (fun path => root.get? path) = (look root).map some
  walked : ∀ {σ ε : Type} (visit : Visitor φ σ ε) (s : σ) (root : Node φ),
    ∃ seen unseen given left, slots root = seen ++ unseen ∧
      Walked visit s root (walk visit s root) seen unseen given left
  stop_steady : ∀ {σ ε : Type} (visit : Visitor φ σ ε) (s : σ) (root : Node φ),
    (walk visit.steady s root).stop = none
  steady_of_none : ∀ {σ ε : Type} (visit : Visitor φ σ ε) (s : σ) (root : Node φ),
    (walk visit s root).stop = none → walk visit.steady s root = walk visit s root

theorem walksAlong_of_eq {walk : Walk φ} {look : Node φ → List (Node φ)} {Slot : Node φ → Path → Prop}
    {slots : Node φ → List Path} {put : Node φ → List (Node φ) → Node φ}
    (hwalk : ∀ {σ ε : Type} (visit : Visitor φ σ ε) (s : σ) (root : Node φ),
      walk visit s root = (visitEach visit s (look root)).map (put root))
    (hhold : ∀ root, SlotsHold root (slots root) (look root) (put root))
    (hmem : ∀ root path, path ∈ slots root ↔ Slot root path)
    (hordered : ∀ root, (slots root).Pairwise (· < ·)) : WalksAlong walk look Slot slots where
  mem_slots_iff := hmem
  ordered := hordered
  look_eq root := (hhold root).held
  walked visit s root := by
    rw [hwalk]
    exact (hhold root).walked visit s
  stop_steady visit s root := by
    rw [hwalk]
    exact stop_visitEach_steady visit s (look root)
  steady_of_none visit s root hstop := by
    rw [hwalk] at hstop
    rw [hwalk, hwalk, visitEach_steady_of_none hstop]

theorem walksAlong_leafSlots : WalksAlong (φ := φ) walkLeaves leaves LeafSlot leafSlots :=
  walksAlong_of_eq walkLeaves_eq slotsHold_leaves (fun _ _ => mem_leafSlots_iff) pairwise_leafSlots

theorem walksAlong_childSlots : WalksAlong (φ := φ) walkChildren visible ChildSlot childSlots :=
  walksAlong_of_eq walkChildren_eq slotsHold_visible (fun _ _ => mem_childSlots_iff) pairwise_childSlots

theorem keepsGroups_walkLeaves (visit : Visitor φ σ ε) (s : σ) (root : Node φ) :
    KeepsGroups [] root (walkLeaves visit s root).value := by
  obtain ⟨seen, unseen, given, left, hslots, hwalked⟩ := walksAlong_leafSlots.walked visit s root
  refine hwalked.keeps.of_leafSlots ?_
  intro slot hslot
  rw [← mem_leafSlots_iff, hslots]
  exact List.mem_append_left unseen hslot

/-- **The walks obey one law**, the deep one with the leaf slots and the shallow one with the slots
directly under the root.  A deep walk keeps every group of the tree, and a sequence is walked like a bare
group of its nodes. -/
theorem walks_along_slots (φ : Type) :
    WalksAlong (φ := φ) walkLeaves leaves LeafSlot leafSlots ∧
    WalksAlong (φ := φ) walkChildren visible ChildSlot childSlots ∧
    ∀ {σ ε : Type} (visit : Visitor φ σ ε) (s : σ),
      (∀ root, KeepsGroups [] root (walkLeaves visit s root).value) ∧
      ∀ ns, walkLeaves visit s (.group none ns) = (walkLeavesAll visit s ns).map (.group none) ∧
        walkChildren visit s (.group none ns) = (visitEach visit s ns).map (.group none) ∧
        leaves (.group none ns) = leavesAll ns ∧ visible (.group none ns) = ns := by
  refine ⟨walksAlong_leafSlots, walksAlong_childSlots, ?_⟩
  intro σ ε visit s
  refine ⟨keepsGroups_walkLeaves visit s, ?_⟩
  intro ns
  exact ⟨rfl, rfl, rfl, rfl⟩

end LosslessSql
