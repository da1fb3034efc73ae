import LosslessSql.Node.Params
import LosslessSql.Proofs.Node.Slots
import Mathlib.Algebra.Group.Nat.Defs
import Mathlib.Data.List.Dedup

/-!
# Parameters, numbered and named again

Numbering the named parameters of a tree collects their names; naming the numbered parameters after these
names gives the tree back.

While a tree is numbered, the table of names grows at its end only.  So the rank that a name has when it
is met is its rank in every later table, and in particular in the last one: all parameters are numbered as
if the whole table had been known from the start (`visitEach_numberParam`).  Read in that table, the number
of each parameter leads back to its name (`nameParam_numbered`), and a number that was in the tree before
leads nowhere, since it is below one.

* `FirstSeen`: a table lists the names that were met, once each and in the order of first sight.
* `FirstSeen.meetName`, `FirstSeen.foldl_meetName`: it still does after one more name, and after any number
  of them.
* `walk_nameParam_numberParam`: **a tree that is numbered and named again is the same tree.**
-/

namespace LosslessSql

open Node

variable {φ σ ε : Type}

/-! ### The table of names -/

theorem mem_meetName {names : List String} {name x : String} :
    x ∈ meetName names name ↔ x ∈ names ∨ x = name := by
  by_cases hname : name ∈ names
  · rw [meetName, if_pos hname]
    refine ⟨Or.inl, ?_⟩
    rintro (hx | rfl)
    · exact hx
    · exact hname
  · rw [meetName, if_neg hname, List.mem_append, List.mem_singleton]

/-- `names` lists the names that occur in `met`, once each and in the order of their first occurrences. -/
structure FirstSeen (names met : List String) : Prop where
  nodup : names.Nodup
  mem_iff : ∀ name, name ∈ names ↔ name ∈ met
  ordered : names.Pairwise fun a b => met.idxOf a < met.idxOf b

theorem firstSeen_nil : FirstSeen [] [] :=
  ⟨.nil, fun _ => Iff.rfl, .nil⟩

/-- The order of the names that were met does not change with what is met later. -/
theorem FirstSeen.pairwise_append {names met : List String} (h : FirstSeen names met)
    (later : List String) :
    names.Pairwise fun a b => (met ++ later).idxOf a < (met ++ later).idxOf b := by
  refine h.ordered.imp_of_mem ?_
  intro a b ha hb hab
  rwa [List.idxOf_append_of_mem ((h.mem_iff a).mp ha), List.idxOf_append_of_mem ((h.mem_iff b).mp hb)]

/-- **A table stays right when one more name is met.** -/
theorem FirstSeen.meetName {names met : List String} (h : FirstSeen names met) (name : String) :
    FirstSeen (meetName names name) (met ++ [name]) := by
  have hordered : (LosslessSql.meetName names name).Pairwise fun a b =>
      (met ++ [name]).idxOf a < (met ++ [name]).idxOf b := by
    by_cases hname : name ∈ names
    · rw [LosslessSql.meetName, if_pos hname]
      exact h.pairwise_append [name]
    · rw [LosslessSql.meetName, if_neg hname]
      refine List.pairwise_append.mpr ⟨h.pairwise_append [name], List.pairwise_singleton _ _, ?_⟩
      intro a ha b hb
      obtain rfl := List.mem_singleton.mp hb
      -- An old name occurs before the end of what was met, the new one only there.
      have hmem : a ∈ met := (h.mem_iff a).mp ha
      have hfresh : b ∉ met := fun hb => hname ((h.mem_iff b).mpr hb)
      have hlt : met.idxOf a < met.length := List.idxOf_lt_length_iff.mpr hmem
      rw [List.idxOf_append_of_mem hmem, List.idxOf_append_of_notMem hfresh]
      omega
  refine ⟨hordered.imp ?_, ?_, hordered⟩
  · rintro a b hlt rfl
    exact Nat.lt_irrefl _ hlt
  · intro x
    rw [mem_meetName, List.mem_append, List.mem_singleton, h.mem_iff]

theorem FirstSeen.foldl_meetName {names met : List String} (h : FirstSeen names met)
    (later : List String) : FirstSeen (later.foldl LosslessSql.meetName names) (met ++ later) := by
  induction later generalizing names met with
  | nil => rwa [List.append_nil]
  | cons name later ih =>
    have hnext := ih (h.meetName name)
    rwa [List.append_assoc, List.singleton_append] at hnext

theorem FirstSeen.length_eq {names met : List String} (h : FirstSeen names met) :
    names.length = met.dedup.length := by
  apply List.Perm.length_eq
  refine (List.perm_ext_iff_of_nodup h.nodup met.nodup_dedup).mpr ?_
  intro name
  rw [h.mem_iff, List.mem_dedup]

theorem prefix_meetName (names : List String) (name : String) : names <+: meetName names name := by
  unfold meetName
  split
  · exact List.prefix_rfl
  · exact List.prefix_append names [name]

theorem prefix_foldl_meetName (names later : List String) : names <+: later.foldl meetName names := by
  induction later generalizing names with
  | nil => exact List.prefix_rfl
  | cons name later ih => exact (prefix_meetName names name).trans (ih _)

/-! ### Numbering -/

namespace Node

def paramName? : Node φ → Option String
  | .leaf (.named name) => some name
  | _ => none

def paramNames (n : Node φ) : List String :=
  n.leaves.filterMap paramName?

/-- The numbered parameter in place of a named one, by the rank of its name in a table; any other node
stays. -/
def numbered (names : List String) : Node φ → Node φ
  | .leaf (.named name) => ordinal (Int64.ofNat (rankOf names name))
  | n => n

theorem numbered_named (names : List String) (name : String) :
    numbered (φ := φ) names (named name) = ordinal (Int64.ofNat (rankOf names name)) :=
  rfl

theorem paramName?_eq_some_iff {n : Node φ} {name : String} :
    n.paramName? = some name ↔ n = named name := by
  refine ⟨?_, ?_⟩
  · intro h
    unfold paramName? at h
    split at h
    · rw [Option.some.inj h]
      rfl
    · exact absurd h (by simp)
  · rintro rfl
    rfl

theorem numbered_of_paramName?_eq_none {n : Node φ} (h : n.paramName? = none) (names : List String) :
    numbered names n = n := by
  unfold numbered
  split
  · exact absurd h (by simp [paramName?])
  · rfl

theorem numberParam_of_paramName?_eq_none {n : Node φ} (h : n.paramName? = none)
    (names : List String) : numberParam (ε := ε) names n = ⟨n, names, none⟩ := by
  unfold numberParam
  split
  · exact absurd h (by simp [paramName?])
  · rfl

theorem numberParam_named (names : List String) (name : String) :
    numberParam (φ := φ) (ε := ε) names (named name) =
      ⟨numbered (meetName names name) (named name), meetName names name, none⟩ :=
  rfl

/-- A parameter whose name has been met is numbered in the same way ever after. -/
theorem numbered_of_prefix {names names' : List String} (h : names <+: names') {name : String}
    (hname : name ∈ names) :
    numbered names' (named (φ := φ) name) = numbered names (named name) := by
  obtain ⟨later, rfl⟩ := h
  rw [numbered_named, numbered_named, rankOf, rankOf, List.idxOf_append_of_mem hname]

/-- **All parameters are numbered as if the last table had been known from the start.** -/
theorem visitEach_numberParam (names : List String) (ns : List (Node φ)) :
    visitEach (ε := ε) numberParam names ns =
      ⟨ns.map (numbered ((ns.filterMap paramName?).foldl meetName names)),
        (ns.filterMap paramName?).foldl meetName names, none⟩ := by
  induction ns generalizing names with
  | nil => rfl
  | cons n ns ih =>
    cases hname : n.paramName? with
    | none =>
      have hfirst := numberParam_of_paramName?_eq_none (ε := ε) hname names
      rw [visitEach_cons_of_none (by rw [hfirst]), hfirst, ih, List.filterMap_cons_none hname,
        List.map_cons, numbered_of_paramName?_eq_none hname]
      rfl
    | some name =>
      obtain rfl := paramName?_eq_some_iff.mp hname
      -- The last table begins with the one in which the name was met.
      have hlast := numbered_of_prefix (φ := φ)
        (prefix_foldl_meetName (meetName names name) (ns.filterMap paramName?))
        (mem_meetName.mpr (Or.inr rfl))
      rw [visitEach_cons_of_none rfl, numberParam_named, ih, List.filterMap_cons_some hname,
        List.foldl_cons, List.map_cons, hlast]
      rfl

/-! ### Naming again -/

theorem ordinalIndex?_ordinal_rankOf {names : List String} (h : names.length < 2 ^ 63) {name : String}
    (hname : name ∈ names) :
    (ordinal (φ := φ) (Int64.ofNat (rankOf names name))).ordinalIndex? = some (names.idxOf name) := by
  have hlt : names.idxOf name < names.length := List.idxOf_lt_length_iff.mpr hname
  have hvalue : (Int64.ofNat (rankOf names name)).toInt = names.idxOf name + 1 := by
    rw [Int64.toInt_ofNat_of_lt (by rw [rankOf]; omega), rankOf]
    rfl
  show Ordinal.index? (.ofValue (Int64.ofNat (rankOf names name))) = _
  rw [Ordinal.index?, Ordinal.ofValue, hvalue, if_pos (by omega), Int.add_sub_cancel, Int.toNat_natCast]

/-- **In a table with its name, the number of a parameter leads back to the name.** -/
theorem nameParam_numbered {names : List String} (h : names.length < 2 ^ 63) {n : Node φ}
    (hname : ∀ name, n.paramName? = some name → name ∈ names)
    (hordinal : ∀ o, n = .leaf (.ordinal o) → ¬ 1 ≤ o.value.toInt) (s : σ) :
    nameParam names s (numbered names n) = ⟨n, s, none⟩ := by
  cases hn : n.paramName? with
  | some name =>
    have hmem := hname name hn
    obtain rfl := paramName?_eq_some_iff.mp hn
    rw [numbered_named, nameParam, ordinalIndex?_ordinal_rankOf h hmem]
    simp only [List.getElem?_idxOf hmem]
  | none =>
    have hindex : n.ordinalIndex? = none := by
      unfold ordinalIndex?
      split
      next o => rw [Ordinal.index?, if_neg (hordinal o rfl)]
      next => rfl
    rw [numbered_of_paramName?_eq_none hn, nameParam, hindex]

theorem visitEach_nameParam_numbered {names : List String} (h : names.length < 2 ^ 63)
    {ns : List (Node φ)} (hname : ∀ n ∈ ns, ∀ name, n.paramName? = some name → name ∈ names)
    (hordinal : ∀ n ∈ ns, ∀ o, n = .leaf (.ordinal o) → ¬ 1 ≤ o.value.toInt) (s : σ) :
    visitEach (nameParam names) s (ns.map (numbered names)) = ⟨ns, s, none⟩ := by
  induction ns with
  | nil => rfl
  | cons n ns ih =>
    rw [List.forall_mem_cons] at hname hordinal
    have hfirst := nameParam_numbered h hname.1 hordinal.1 s
    rw [List.map_cons, visitEach_cons_of_none (by rw [hfirst]), hfirst, ih hname.2 hordinal.2]
    rfl

/-! ### There and back -/

theorem isGroup_numbered (names : List String) (n : Node φ) : (numbered names n).isGroup = n.isGroup := by
  unfold numbered
  split <;> rfl

theorem numbered_ne_named (names : List String) (n : Node φ) (name : String) :
    numbered names n ≠ named name := by
  unfold numbered
  split
  next old => simp [ordinal, named]
  next hother => exact fun h => hother name h

/-- **A tree that is numbered and named again is the same tree.**  If it holds no number from one on, and
less than `2 ^ 63` different names, then numbering it lists its names in the order of first sight and leaves
no named parameter, and naming it after them does not fail and gives it back.  A sequence is a bare group of
its nodes. -/
theorem walk_nameParam_numberParam {t : Node φ}
    (hordinal : ∀ o, .leaf (.ordinal o) ∈ t.leaves → ¬ 1 ≤ o.value.toInt)
    (hfew : t.paramNames.dedup.length < 2 ^ 63) :
    ∃ t' names, walkLeaves (ε := ε) numberParam [] t = ⟨t', names, none⟩ ∧
      FirstSeen names t.paramNames ∧ (∀ name, named name ∉ t'.leaves) ∧
      ∀ s : σ, walkLeaves (nameParam names) s t' = ⟨t, s, none⟩ := by
  have hseen : FirstSeen (t.paramNames.foldl meetName []) t.paramNames :=
    firstSeen_nil.foldl_meetName t.paramNames
  generalize hnames : t.paramNames.foldl meetName [] = names at hseen
  have hlength : (t.leaves.map (numbered names)).length = t.leaves.length := List.length_map _
  have hleaf : ∀ v ∈ t.leaves.map (numbered names), v.isGroup = false := by
    intro v hv
    obtain ⟨n, hn, rfl⟩ := List.mem_map.mp hv
    rw [isGroup_numbered, isGroup_of_mem_leaves hn]
  refine ⟨fill t (t.leaves.map (numbered names)), names, ?_, hseen, ?_, ?_⟩
  · rw [walkLeaves_eq, visitEach_numberParam, ← hnames]
    rfl
  · intro name
    rw [leaves_fill hlength hleaf]
    intro hmem
    obtain ⟨n, _, hn⟩ := List.mem_map.mp hmem
    exact numbered_ne_named names n name hn
  · intro s
    have hback : visitEach (nameParam names) s (t.leaves.map (numbered names)) = ⟨t.leaves, s, none⟩ := by
      refine visitEach_nameParam_numbered (by rwa [hseen.length_eq]) ?_ ?_ s
      · intro n hn name hname
        exact (hseen.mem_iff name).mpr (List.mem_filterMap.mpr ⟨n, hn, hname⟩)
      · rintro n hn o rfl
        exact hordinal o hn
    rw [walkLeaves_fill hlength hleaf, hback, Visited.map, fill_leaves]

/-- A name that comes again in a group, beside a number that refers to nothing. -/
theorem walk_nameParam_numberParam_nested :
    ∃ t t' : Node Unit, t = .group none [named "b",
        .group (some .paren) [ordinal 0, named "a", named "b"], .fragment ()] ∧
      walkLeaves (ε := Unit) numberParam [] t = ⟨t', ["b", "a"], none⟩ ∧
      walkLeaves (nameParam ["b", "a"]) () t' = ⟨t, (), none⟩ := by
  let t : Node Unit := .group none [named "b",
    .group (some .paren) [ordinal 0, named "a", named "b"], .fragment ()]
  have hordinal : ∀ o, .leaf (.ordinal o) ∈ t.leaves → ¬ 1 ≤ o.value.toInt := by
    intro o ho
    have hzero : o = .ofValue 0 := by simpa [t, leaves, leavesAll, named, ordinal] using ho
    rw [hzero]
    decide
  have hfew : t.paramNames.dedup.length < 2 ^ 63 := by decide
  obtain ⟨t', names, hnumber, _, _, hname⟩ :=
    walk_nameParam_numberParam (σ := Unit) (ε := Unit) hordinal hfew
  obtain rfl : names = ["b", "a"] := (congrArg Visited.state hnumber).symm.trans (by decide)
  exact ⟨t, t', rfl, hnumber, hname ()⟩

end Node

end LosslessSql
