import LosslessSql.Proofs.Node.Paths
import LosslessSql.Proofs.Walks

/-!
# Putting a node into a slot

`Node.put?` overwrites the slot at the end of a path.  A path that leads somewhere can be put into, and
what is put there changes nothing else: a slot that is neither above nor below the path holds what it
held, and the groups above it keep their fences and the number of their nodes.

* `put?_cons_eq_some_iff`: one step of a path.
* `exists_put?`: a slot that can be read can be overwritten.
* `put?_get?`: putting back what stands in a slot changes nothing.
* `get?_put?_elsewhere`, `keepsGroups_put?`: **nothing else is changed.**
* `put?_concat`, `exists_group_put?`: a slot is overwritten through its group, by setting one node of it.
* `putAll?`: the same for the bare sequence at the root.
-/

namespace LosslessSql.Node

variable {φ : Type}

/-! ### Along a path -/

theorem put?_cons_eq_some_iff {new n n' : Node φ} {i : Nat} {path : Path} :
    put? new (i :: path) n = some n' ↔
      ∃ fence children child child', n = .group fence children ∧ children[i]? = some child ∧
        put? new path child = some child' ∧ n' = .group fence (children.set i child') := by
  cases n with
  | leaf l => simp [put?]
  | fragment f => simp [put?]
  | group fence children => simp [put?, Option.bind_eq_some_iff, eq_comm (a := n')]

theorem exists_put? {n m : Node φ} {path : Path} (h : n.get? path = some m) (new : Node φ) :
    ∃ n', put? new path n = some n' := by
  induction path generalizing n with
  | nil => exact ⟨new, rfl⟩
  | cons i path ih =>
    obtain ⟨fence, children, child, rfl, hchild, hrest⟩ := get?_cons_eq_some_iff.mp h
    obtain ⟨child', hput⟩ := ih hrest
    exact ⟨_, put?_cons_eq_some_iff.mpr ⟨fence, children, child, child', rfl, hchild, hput, rfl⟩⟩

theorem put?_get? {n m : Node φ} {path : Path} (h : n.get? path = some m) : put? m path n = some n := by
  induction path generalizing n with
  | nil =>
    obtain rfl : n = m := Option.some.inj h
    rfl
  | cons i path ih =>
    obtain ⟨fence, children, child, rfl, hchild, hrest⟩ := get?_cons_eq_some_iff.mp h
    obtain ⟨hi, rfl⟩ := List.getElem?_eq_some_iff.mp hchild
    refine put?_cons_eq_some_iff.mpr ⟨fence, children, _, _, rfl, hchild, ih hrest, ?_⟩
    rw [List.set_getElem_self]

/-! ### What else there is -/

/-- **A slot that is neither above nor below the path holds what it held.** -/
theorem get?_put?_elsewhere {new n n' : Node φ} {path other : Path} (h : put? new path n = some n')
    (hbelow : ¬ path <+: other) (habove : ¬ other <+: path) : n'.get? other = n.get? other := by
  induction path generalizing n n' other with
  | nil => exact absurd List.nil_prefix hbelow
  | cons i path ih =>
    cases other with
    | nil => exact absurd List.nil_prefix habove
    | cons j other =>
      obtain ⟨fence, children, child, child', rfl, hchild, hput, rfl⟩ := put?_cons_eq_some_iff.mp h
      by_cases hij : i = j
      · subst hij
        obtain ⟨hi, _⟩ := List.getElem?_eq_some_iff.mp hchild
        have hrest : child'.get? other = child.get? other := by
          refine ih hput ?_ ?_
          · intro hstep
            exact hbelow (List.cons_prefix_cons.mpr ⟨rfl, hstep⟩)
          · intro hstep
            exact habove (List.cons_prefix_cons.mpr ⟨rfl, hstep⟩)
        simp only [get?, List.getElem?_set_self hi, hchild, Option.bind_some, hrest]
      · simp only [get?, List.getElem?_set_ne hij]

/-- **A group that is neither in the slot nor below it keeps its fence and the number of its nodes.** -/
theorem keepsGroups_put? {new n n' : Node φ} {slot : Path} (h : put? new slot n = some n') :
    KeepsGroups [slot] n n' := by
  intro path fence children hpath hslot
  have hbelow : ¬ slot <+: path := hslot slot (List.mem_singleton_self slot)
  by_cases habove : path <+: slot
  · -- The path leads to a group on the way to the slot.
    clear hslot
    induction path generalizing n n' slot with
    | nil =>
      cases slot with
      | nil => exact absurd List.nil_prefix hbelow
      | cons i slot =>
        obtain ⟨_, _, _, child', hgroup, _, _, rfl⟩ := put?_cons_eq_some_iff.mp h
        obtain rfl := Option.some.inj hpath
        obtain ⟨rfl, rfl⟩ := group.inj hgroup
        exact ⟨children.set i child', rfl, List.length_set⟩
    | cons i path ih =>
      obtain ⟨rest, rfl⟩ := habove
      obtain ⟨_, siblings, child, child', rfl, hchild, hput, rfl⟩ := put?_cons_eq_some_iff.mp h
      obtain ⟨hi, _⟩ := List.getElem?_eq_some_iff.mp hchild
      simp only [get?, hchild, Option.bind_some] at hpath
      have hchildBelow : ¬ path ++ rest <+: path := by
        intro hstep
        exact hbelow (List.cons_prefix_cons.mpr ⟨rfl, hstep⟩)
      obtain ⟨children', hget, hlength⟩ := ih hput hpath hchildBelow (List.prefix_append path rest)
      refine ⟨children', ?_, hlength⟩
      simp only [get?, List.getElem?_set_self hi, Option.bind_some, hget]
  · exact ⟨children, (get?_put?_elsewhere h hbelow habove).trans hpath, rfl⟩

/-- **A slot is overwritten through its group**, by setting one node of it. -/
theorem put?_concat {n : Node φ} {path : Path} {fence : Option Delimiter} {children : List (Node φ)}
    (h : n.get? path = some (.group fence children)) {i : Nat} (hi : i < children.length)
    (new : Node φ) : put? (.group fence (children.set i new)) path n = put? new (path ++ [i]) n := by
  induction path generalizing n with
  | nil =>
    obtain rfl := Option.some.inj h
    simp [put?, hi]
  | cons j path ih =>
    obtain ⟨_, siblings, child, rfl, hchild, hrest⟩ := get?_cons_eq_some_iff.mp h
    simp only [List.cons_append, put?, hchild, Option.bind_eq_bind, Option.bind_some, ih hrest]

theorem exists_group_put? {n m : Node φ} {path : Path} {i : Nat} (h : n.get? (path ++ [i]) = some m)
    (new : Node φ) :
    ∃ fence children, n.get? path = some (.group fence children) ∧ children[i]? = some m ∧
      put? (.group fence (children.set i new)) path n = put? new (path ++ [i]) n := by
  rw [get?_append] at h
  obtain ⟨g, hg, hm⟩ := Option.bind_eq_some_iff.mp h
  obtain ⟨fence, children, child, rfl, hchild, hend⟩ := get?_cons_eq_some_iff.mp hm
  obtain rfl : child = m := Option.some.inj hend
  obtain ⟨hi, _⟩ := List.getElem?_eq_some_iff.mp hchild
  exact ⟨fence, children, hg, hchild, put?_concat hg hi new⟩

/-! ### The sequence at the root -/

/-- The sequence with `new` at the end of a path, whose first step chooses a node of the sequence. -/
def putAll? (new : Node φ) : Path → List (Node φ) → Option (List (Node φ))
  | [], _ => none
  | i :: path, ns => (ns[i]?.bind (put? new path)).map (ns.set i ·)

theorem put?_group (new : Node φ) {path : Path} (hpath : path ≠ []) (fence : Option Delimiter)
    (children : List (Node φ)) :
    put? new path (.group fence children) = (putAll? new path children).map (.group fence) := by
  cases path with
  | nil => exact absurd rfl hpath
  | cons i path =>
    cases hchild : children[i]? with
    | none => simp [put?, putAll?, hchild]
    | some child => cases hput : put? new path child <;> simp [put?, putAll?, hchild, hput]

theorem putAll?_zero (new n : Node φ) (path : Path) (ns : List (Node φ)) :
    putAll? new (0 :: path) (n :: ns) = (put? new path n).map (· :: ns) := rfl

theorem putAll?_succ (new n : Node φ) (i : Nat) (path : Path) (ns : List (Node φ)) :
    putAll? new ((i + 1) :: path) (n :: ns) = (putAll? new (i :: path) ns).map (n :: ·) := by
  rw [putAll?, putAll?, Option.map_map]
  rfl

end LosslessSql.Node
