import LosslessSql.Proofs.Node.Putting

/-!
# The first and the last leaf

The first leaf is found by going into the groups from left to right, and out again where there is no leaf;
the last one is found in the same way from right to left.  Neither search builds the list of leaves, but
each ends at one end of it, and a replacement is put into the slot at that end of the list of leaf slots.

* `firstLeaf?_eq`, `lastLeaf?_eq`: the leaf that is found.
* `replaceFirstLeaf?_eq`, `replaceLastLeaf?_eq`: the slot that is overwritten.
* `overwritesLeaf_of_put?`: a leaf slot is overwritten without any other change.
* `finds_first_and_last_leaf`: **the searches for the two ends obey one law**, with the order of the
  document and the opposite order.
-/

namespace LosslessSql.Node

variable {φ : Type}

/-! ### The leaf that is found -/

theorem firstLeafAll?_eq_of_forall {ns : List (Node φ)} (h : ∀ n ∈ ns, n.firstLeaf? = n.leaves.head?) :
    firstLeafAll? ns = (leavesAll ns).head? := by
  induction ns with
  | nil => rfl
  | cons n ns ih =>
    rw [List.forall_mem_cons] at h
    rw [firstLeafAll?, leavesAll, List.head?_append, h.1, ih h.2]
    cases n.leaves.head? <;> rfl

/-- **The first leaf is the first of the leaves.** -/
theorem firstLeaf?_eq (n : Node φ) : n.firstLeaf? = n.leaves.head? := by
  induction n using ind with
  | leaf l => rfl
  | fragment f => rfl
  | group fence children ih => exact firstLeafAll?_eq_of_forall ih

theorem lastLeafAll?_eq_of_forall {ns : List (Node φ)} (h : ∀ n ∈ ns, n.lastLeaf? = n.leaves.getLast?) :
    lastLeafAll? ns = (leavesAll ns).getLast? := by
  induction ns with
  | nil => rfl
  | cons n ns ih =>
    rw [List.forall_mem_cons] at h
    rw [lastLeafAll?, leavesAll, List.getLast?_append, h.1, ih h.2]
    cases (leavesAll ns).getLast? <;> rfl

/-- **The last leaf is the last of the leaves.** -/
theorem lastLeaf?_eq (n : Node φ) : n.lastLeaf? = n.leaves.getLast? := by
  induction n using ind with
  | leaf l => rfl
  | fragment f => rfl
  | group fence children ih => exact lastLeafAll?_eq_of_forall ih

/-! ### The slot that is overwritten -/

theorem exists_put?_of_mem_leafSlots {n : Node φ} {slot : Path} (h : slot ∈ n.leafSlots)
    (new : Node φ) : ∃ n', put? new slot n = some n' := by
  obtain ⟨m, hm, _⟩ := mem_leafSlots_iff.mp h
  exact exists_put? hm new

theorem exists_putAll?_of_mem_leafSlotsAll {ns : List (Node φ)} {slot : Path}
    (h : slot ∈ leafSlotsAll ns) (new : Node φ) :
    ∃ ns', putAll? new slot ns = some ns' ∧
      ∀ n, putAll? new (slot.modifyHead (· + 1)) (n :: ns) = some (n :: ns') := by
  obtain ⟨i, rest, m, rfl, hm, hrest⟩ := mem_leafSlotsAll.mp h
  obtain ⟨m', hput⟩ := exists_put?_of_mem_leafSlots hrest new
  have hputAll : putAll? new (i :: rest) ns = some (ns.set i m') := by
    rw [putAll?, hm, Option.bind_some, hput, Option.map_some]
  refine ⟨ns.set i m', hputAll, ?_⟩
  intro n
  rw [List.modifyHead_cons, putAll?_succ, hputAll, Option.map_some]

theorem map_group_putAll? (new : Node φ) (fence : Option Delimiter) {children : List (Node φ)}
    {slot? : Option Path} (h : ∀ slot ∈ slot?, slot ∈ leafSlotsAll children) :
    (slot?.bind fun slot => putAll? new slot children).map (group fence) =
      slot?.bind fun slot => put? new slot (.group fence children) := by
  cases slot? with
  | none => rfl
  | some slot =>
    obtain ⟨i, rest, _, rfl, _⟩ := mem_leafSlotsAll.mp (h slot rfl)
    rw [Option.bind_some, Option.bind_some, put?_group new (List.cons_ne_nil i rest)]

theorem replaceFirstLeafAll?_eq_of_forall {new : Node φ} {ns : List (Node φ)}
    (h : ∀ n ∈ ns, replaceFirstLeaf? new n = n.leafSlots.head?.bind fun slot => put? new slot n) :
    replaceFirstLeafAll? new ns = (leafSlotsAll ns).head?.bind fun slot => putAll? new slot ns := by
  induction ns with
  | nil => rfl
  | cons n ns ih =>
    rw [List.forall_mem_cons] at h
    rw [replaceFirstLeafAll?, leafSlotsAll, List.head?_append, List.head?_map, List.head?_map, h.1, ih h.2]
    cases hfirst : n.leafSlots.head? with
    | some slot =>
      obtain ⟨n', hput⟩ := exists_put?_of_mem_leafSlots (List.mem_of_head? hfirst) new
      simp only [Option.bind_some, Option.map_some, Option.some_or, putAll?_zero, hput]
    | none =>
      cases hothers : (leafSlotsAll ns).head? with
      | none => rfl
      | some slot =>
        obtain ⟨ns', hput, hnext⟩ := exists_putAll?_of_mem_leafSlotsAll (List.mem_of_head? hothers) new
        simp only [Option.bind_some, Option.bind_none, Option.map_some, Option.map_none, Option.none_or,
          hput, hnext]

/-- **A replacement for the first leaf goes into the first leaf slot.** -/
theorem replaceFirstLeaf?_eq (new n : Node φ) :
    replaceFirstLeaf? new n = n.leafSlots.head?.bind fun slot => put? new slot n := by
  induction n using ind with
  | leaf l => rfl
  | fragment f => rfl
  | group fence children ih =>
    rw [replaceFirstLeaf?, replaceFirstLeafAll?_eq_of_forall ih, leafSlots]
    exact map_group_putAll? new fence fun _ hslot => List.mem_of_head? hslot

example : replaceFirstLeaf? (φ := Unit) (.fragment ())
      (.group none [.group (some .paren) [.group none []], .group (some .brace) [.leaf .cast]]) =
    some (.group none [.group (some .paren) [.group none []], .group (some .brace) [.fragment ()]]) := rfl

theorem replaceLastLeafAll?_eq_of_forall {new : Node φ} {ns : List (Node φ)}
    (h : ∀ n ∈ ns, replaceLastLeaf? new n = n.leafSlots.getLast?.bind fun slot => put? new slot n) :
    replaceLastLeafAll? new ns = (leafSlotsAll ns).getLast?.bind fun slot => putAll? new slot ns := by
  induction ns with
  | nil => rfl
  | cons n ns ih =>
    rw [List.forall_mem_cons] at h
    rw [replaceLastLeafAll?, leafSlotsAll, List.getLast?_append, List.getLast?_map, List.getLast?_map,
      h.1, ih h.2]
    cases hothers : (leafSlotsAll ns).getLast? with
    | some slot =>
      obtain ⟨ns', hput, hnext⟩ := exists_putAll?_of_mem_leafSlotsAll (List.mem_of_getLast? hothers) new
      simp only [Option.bind_some, Option.map_some, Option.some_or, hput, hnext]
    | none =>
      cases hlast : n.leafSlots.getLast? with
      | none => rfl
      | some slot =>
        simp only [Option.bind_some, Option.bind_none, Option.map_some, Option.map_none, Option.none_or,
          putAll?_zero]

/-- **A replacement for the last leaf goes into the last leaf slot.** -/
theorem replaceLastLeaf?_eq (new n : Node φ) :
    replaceLastLeaf? new n = n.leafSlots.getLast?.bind fun slot => put? new slot n := by
  induction n using ind with
  | leaf l => rfl
  | fragment f => rfl
  | group fence children ih =>
    rw [replaceLastLeaf?, replaceLastLeafAll?_eq_of_forall ih, leafSlots]
    exact map_group_putAll? new fence fun _ hslot => List.mem_of_getLast? hslot

/-! ### The law of both ends -/

/-- A tree with `new` in one of its leaf slots, and no other change. -/
structure OverwritesLeaf (slot : Path) (new before after : Node φ) : Prop where
  leafSlot : before.LeafSlot slot
  put : put? new slot before = some after
  held : after.get? slot = some new
  others : ∀ path, ¬ slot <+: path → ¬ path <+: slot → after.get? path = before.get? path
  groups : KeepsGroups [] before after

theorem overwritesLeaf_of_put? {slot : Path} {new n n' : Node φ} (hslot : n.LeafSlot slot)
    (h : put? new slot n = some n') : OverwritesLeaf slot new n n' where
  leafSlot := hslot
  put := h
  held := get?_of_put? h
  others _ hbelow habove := get?_put?_elsewhere h hbelow habove
  groups := (keepsGroups_put? h).of_leafSlots fun slot' hslot' => by
    obtain rfl := List.mem_singleton.mp hslot'
    exact hslot

/-- The law of the searches at one end of a tree, for which `pick` takes that end of a list and `Before`
orders the paths from that end on. -/
structure FindsLeafAt (pick : ∀ {α : Type}, List α → Option α) (Before : Path → Path → Prop)
    (find : Node φ → Option (Node φ)) (replace : Node φ → Node φ → Option (Node φ)) : Prop where
  find_eq : ∀ n, find n = pick n.leaves
  find_eq_none_iff : ∀ n, find n = none ↔ n.leaves = []
  replace_eq_none_iff : ∀ new n, replace new n = none ↔ n.leaves = []
  /-- The slot where it stands comes before all other leaf slots, and nothing else is changed. -/
  replaced : ∀ new n n', replace new n = some n' → ∃ slot, n.get? slot = find n ∧
    (∀ path, n.LeafSlot path → path ≠ slot → Before slot path) ∧ OverwritesLeaf slot new n n'

theorem leafSlots_eq_nil_iff {n : Node φ} : n.leafSlots = [] ↔ n.leaves = [] := by
  rw [← List.map_eq_nil_iff (f := fun path => n.get? path), map_get?_leafSlots, List.map_eq_nil_iff]

theorem findsLeafAt_of_eq {pick : ∀ {α : Type}, List α → Option α} {Before : Path → Path → Prop}
    {find : Node φ → Option (Node φ)} {replace : Node φ → Node φ → Option (Node φ)}
    (hnone : ∀ {α : Type} {l : List α}, pick l = none ↔ l = [])
    (hmap : ∀ {α β : Type} (f : α → β) (l : List α), pick (l.map f) = (pick l).map f)
    (hbefore : ∀ {l : List Path} {slot : Path}, l.Pairwise (· < ·) → pick l = some slot →
      slot ∈ l ∧ ∀ path ∈ l, path ≠ slot → Before slot path)
    (hfind : ∀ n, find n = pick n.leaves)
    (hreplace : ∀ new n, replace new n = (pick n.leafSlots).bind fun slot => put? new slot n) :
    FindsLeafAt pick Before find replace where
  find_eq := hfind
  find_eq_none_iff n := by rw [hfind, hnone]
  replace_eq_none_iff new n := by
    rw [hreplace, ← leafSlots_eq_nil_iff]
    cases hslot : pick n.leafSlots with
    | none => simp only [Option.bind_none, hnone.mp hslot]
    | some slot =>
      obtain ⟨hmem, _⟩ := hbefore (pairwise_leafSlots n) hslot
      obtain ⟨n', hput⟩ := exists_put?_of_mem_leafSlots hmem new
      simp only [Option.bind_some, hput, reduceCtorEq, List.ne_nil_of_mem hmem]
  replaced new n n' h := by
    rw [hreplace] at h
    obtain ⟨slot, hslot, hput⟩ := Option.bind_eq_some_iff.mp h
    obtain ⟨hmem, hfirst⟩ := hbefore (pairwise_leafSlots n) hslot
    refine ⟨slot, ?_, ?_, overwritesLeaf_of_put? (mem_leafSlots_iff.mp hmem) hput⟩
    · have hheld := congrArg pick (map_get?_leafSlots n)
      rw [hmap, hmap, hslot, ← hfind] at hheld
      cases hm : find n with
      | none =>
        rw [hm] at hheld
        exact absurd hheld (by simp)
      | some m =>
        rw [hm] at hheld
        exact Option.some.inj hheld
    · intro path hpath
      exact hfirst path (mem_leafSlots_iff.mpr hpath)

theorem findsLeafAt_first : FindsLeafAt (φ := φ) List.head? (· < ·) firstLeaf? replaceFirstLeaf? := by
  refine findsLeafAt_of_eq List.head?_eq_none_iff ?_ ?_ firstLeaf?_eq replaceFirstLeaf?_eq
  · intro α β f l
    exact List.head?_map
  · intro l slot hl hslot
    obtain ⟨others, rfl⟩ := List.head?_eq_some_iff.mp hslot
    refine ⟨List.mem_cons_self, ?_⟩
    intro path hpath hne
    rcases List.mem_cons.mp hpath with rfl | hmem
    · exact absurd rfl hne
    · exact (List.pairwise_cons.mp hl).1 path hmem

theorem findsLeafAt_last : FindsLeafAt (φ := φ) List.getLast? (· > ·) lastLeaf? replaceLastLeaf? := by
  refine findsLeafAt_of_eq List.getLast?_eq_none_iff ?_ ?_ lastLeaf?_eq replaceLastLeaf?_eq
  · intro α β f l
    exact List.getLast?_map
  · intro l slot hl hslot
    obtain ⟨others, rfl⟩ := List.getLast?_eq_some_iff.mp hslot
    refine ⟨List.mem_append_right others List.mem_cons_self, ?_⟩
    intro path hpath hne
    rcases List.mem_append.mp hpath with hmem | hmem
    · exact (List.pairwise_append.mp hl).2.2 path hmem slot List.mem_cons_self
    · exact absurd (List.mem_singleton.mp hmem) hne

/-- **The searches for the first and for the last leaf obey one law**, the one with the order of the
document and the other with the opposite order.  A sequence is searched like a bare group of its nodes. -/
theorem finds_first_and_last_leaf (φ : Type) :
    FindsLeafAt (φ := φ) List.head? (· < ·) firstLeaf? replaceFirstLeaf? ∧
    FindsLeafAt (φ := φ) List.getLast? (· > ·) lastLeaf? replaceLastLeaf? ∧
    ∀ ns : List (Node φ), leaves (.group none ns) = leavesAll ns ∧
      firstLeaf? (.group none ns) = firstLeafAll? ns ∧ lastLeaf? (.group none ns) = lastLeafAll? ns ∧
      ∀ new, replaceFirstLeaf? new (.group none ns) = (replaceFirstLeafAll? new ns).map (.group none) ∧
        replaceLastLeaf? new (.group none ns) = (replaceLastLeafAll? new ns).map (.group none) := by
  refine ⟨findsLeafAt_first, findsLeafAt_last, ?_⟩
  intro ns
  exact ⟨rfl, rfl, rfl, fun new => ⟨rfl, rfl⟩⟩

end LosslessSql.Node
