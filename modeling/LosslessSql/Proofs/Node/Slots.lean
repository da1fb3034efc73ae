import LosslessSql.Node.Leaves
import LosslessSql.Node.Walk
import LosslessSql.Proofs.Node.Lexemes

/-!
# The slots of a tree

The leaves of a tree stand in slots, and the groups around them hold the slots in place.  `fill` puts
other nodes into the slots, from left to right, and keeps the groups.  A walk that edits the leaves at
any depth is a walk along the plain list of leaves, whose outcome is filled in:

    walkLeaves visit s n = visitEach visit s n.leaves, with its nodes filled into n.

So what is to be said about a walk is said about a list: which nodes the visitor is given (`calls`),
what it leaves behind, and where it stops.

* `fill_leaves`: a tree filled with its own leaves is itself.
* `leaves_fill`, `fill_fill`: a tree filled with leaves has those leaves, and can be filled again.
* `visitEach_append_of_stop`, `visitEach_append_of_none`: a visit to two lists goes on to the second
  unless it stops in the first.
* `walkLeaves_eq`, `walkLeavesAll_eq`: **a walk is a visit to the list of leaves.**
* `walkLeaves_fill`: so is a second walk, over what a first one has left, if it left leaves.
* `visitEach_logged`, `walkLeavesAll_logged`: a visitor that keeps a log is given exactly the nodes in
  `calls`.
-/

namespace LosslessSql

def Visited.map {α β σ ε : Type} (f : α → β) (v : Visited α σ ε) : Visited β σ ε :=
  ⟨f v.value, v.state, v.stop⟩

/-- The visitor that does the same and writes down each node that it is given, the latest last. -/
def Visitor.logged {φ σ ε : Type} (visit : Visitor φ σ ε) : Visitor φ (σ × List (Node φ)) ε :=
  fun (s, log) n => ⟨(visit s n).value, ((visit s n).state, log ++ [n]), (visit s n).stop⟩

namespace Node

variable {φ σ ε : Type}

mutual

/-- The tree with other nodes in its leaf slots, from left to right.  If there are too few of them, the
last slots keep their leaves. -/
def fill : Node φ → List (Node φ) → Node φ
  | .leaf l, xs => xs.headD (.leaf l)
  | .fragment f, xs => xs.headD (.fragment f)
  | .group fence children, xs => .group fence (fillAll children xs)

def fillAll : List (Node φ) → List (Node φ) → List (Node φ)
  | [], _ => []
  | n :: ns, xs => fill n (xs.take n.leaves.length) :: fillAll ns (xs.drop n.leaves.length)

end

theorem fillAll_cons_append {n : Node φ} {xs : List (Node φ)} (h : xs.length = n.leaves.length)
    (ns ys : List (Node φ)) : fillAll (n :: ns) (xs ++ ys) = fill n xs :: fillAll ns ys := by
  rw [fillAll, List.take_left' h, List.drop_left' h]

theorem fillAll_leavesAll_of_forall {ns : List (Node φ)} (h : ∀ n ∈ ns, fill n n.leaves = n) :
    fillAll ns (leavesAll ns) = ns := by
  induction ns with
  | nil => rfl
  | cons n ns ih =>
    rw [List.forall_mem_cons] at h
    rw [leavesAll, fillAll_cons_append rfl, h.1, ih h.2]

/-- A tree filled with its own leaves is itself. -/
theorem fill_leaves (n : Node φ) : fill n n.leaves = n := by
  induction n using ind with
  | leaf l => rfl
  | fragment f => rfl
  | group fence children ih =>
    rw [leaves, fill, fillAll_leavesAll_of_forall ih]

theorem fillAll_leavesAll (ns : List (Node φ)) : fillAll ns (leavesAll ns) = ns :=
  fillAll_leavesAll_of_forall fun n _ => fill_leaves n

/-! ### A tree that is filled with leaves -/

/-- As many nodes as a sequence has leaves are some for its first node and some for the others. -/
theorem exists_eq_append_of_length {n : Node φ} {ns vs : List (Node φ)}
    (h : vs.length = (leavesAll (n :: ns)).length) :
    ∃ xs ys, vs = xs ++ ys ∧ xs.length = n.leaves.length ∧ ys.length = (leavesAll ns).length := by
  rw [leavesAll, List.length_append] at h
  refine ⟨vs.take n.leaves.length, vs.drop n.leaves.length, (List.take_append_drop _ vs).symm, ?_, ?_⟩
  · rw [List.length_take]
    omega
  · rw [List.length_drop]
    omega

theorem leaves_of_isGroup_eq_false {n : Node φ} (h : n.isGroup = false) : n.leaves = [n] := by
  cases n with
  | leaf l => rfl
  | fragment f => rfl
  | group fence children => exact absurd h (by simp [isGroup, children?])

theorem fill_of_isGroup_eq_false {n : Node φ} (h : n.isGroup = false) (v : Node φ) : fill n [v] = v := by
  cases n with
  | leaf l => rfl
  | fragment f => rfl
  | group fence children => exact absurd h (by simp [isGroup, children?])

theorem isGroup_of_mem_leaves {n m : Node φ} (h : m ∈ n.leaves) : m.isGroup = false := by
  induction n using ind with
  | leaf l =>
    obtain rfl := List.mem_singleton.mp h
    rfl
  | fragment f =>
    obtain rfl := List.mem_singleton.mp h
    rfl
  | group fence children ih =>
    rw [leaves, leavesAll_eq_flatMap] at h
    obtain ⟨n, hn, hm⟩ := List.mem_flatMap.mp h
    exact ih n hn hm

theorem leavesAll_fillAll_of_forall {ns : List (Node φ)}
    (h : ∀ n ∈ ns, ∀ vs, vs.length = n.leaves.length → (∀ v ∈ vs, v.isGroup = false) →
      (fill n vs).leaves = vs)
    {vs : List (Node φ)} (hvs : vs.length = (leavesAll ns).length) (hleaf : ∀ v ∈ vs, v.isGroup = false) :
    leavesAll (fillAll ns vs) = vs := by
  induction ns generalizing vs with
  | nil =>
    obtain rfl := List.length_eq_zero_iff.mp hvs
    rfl
  | cons n ns ih =>
    rw [List.forall_mem_cons] at h
    obtain ⟨xs, ys, rfl, hxs, hys⟩ := exists_eq_append_of_length hvs
    rw [List.forall_mem_append] at hleaf
    rw [fillAll_cons_append hxs, leavesAll, h.1 xs hxs hleaf.1, ih h.2 hys hleaf.2]

/-- **The leaves of a tree that is filled with leaves** are those. -/
theorem leaves_fill {n : Node φ} {vs : List (Node φ)} (hvs : vs.length = n.leaves.length)
    (hleaf : ∀ v ∈ vs, v.isGroup = false) : (fill n vs).leaves = vs := by
  induction n using ind generalizing vs with
  | leaf l =>
    obtain ⟨v, rfl⟩ := List.length_eq_one_iff.mp hvs
    exact leaves_of_isGroup_eq_false (hleaf v (List.mem_singleton_self v))
  | fragment f =>
    obtain ⟨v, rfl⟩ := List.length_eq_one_iff.mp hvs
    exact leaves_of_isGroup_eq_false (hleaf v (List.mem_singleton_self v))
  | group fence children ih => exact leavesAll_fillAll_of_forall (fun n hn vs => ih n hn) hvs hleaf

theorem fillAll_fillAll_of_forall {ns : List (Node φ)}
    (h : ∀ n ∈ ns, ∀ vs ws, vs.length = n.leaves.length → (∀ v ∈ vs, v.isGroup = false) →
      ws.length = n.leaves.length → fill (fill n vs) ws = fill n ws)
    {vs ws : List (Node φ)} (hvs : vs.length = (leavesAll ns).length)
    (hleaf : ∀ v ∈ vs, v.isGroup = false) (hws : ws.length = (leavesAll ns).length) :
    fillAll (fillAll ns vs) ws = fillAll ns ws := by
  induction ns generalizing vs ws with
  | nil => rfl
  | cons n ns ih =>
    rw [List.forall_mem_cons] at h
    obtain ⟨xs, ys, rfl, hxs, hys⟩ := exists_eq_append_of_length hvs
    obtain ⟨as, bs, rfl, has, hbs⟩ := exists_eq_append_of_length hws
    rw [List.forall_mem_append] at hleaf
    have hlength : as.length = (fill n xs).leaves.length := by rw [leaves_fill hxs hleaf.1, has, hxs]
    rw [fillAll_cons_append hxs, fillAll_cons_append hlength, fillAll_cons_append has,
      h.1 xs as hxs hleaf.1 has, ih h.2 hys hleaf.2 hbs]

/-- **A tree that is filled with leaves can be filled again**, as if it had not been. -/
theorem fill_fill {n : Node φ} {vs ws : List (Node φ)} (hvs : vs.length = n.leaves.length)
    (hleaf : ∀ v ∈ vs, v.isGroup = false) (hws : ws.length = n.leaves.length) :
    fill (fill n vs) ws = fill n ws := by
  induction n using ind generalizing vs ws with
  | leaf l =>
    obtain ⟨v, rfl⟩ := List.length_eq_one_iff.mp hvs
    obtain ⟨w, rfl⟩ := List.length_eq_one_iff.mp hws
    exact fill_of_isGroup_eq_false (hleaf v (List.mem_singleton_self v)) w
  | fragment f =>
    obtain ⟨v, rfl⟩ := List.length_eq_one_iff.mp hvs
    obtain ⟨w, rfl⟩ := List.length_eq_one_iff.mp hws
    exact fill_of_isGroup_eq_false (hleaf v (List.mem_singleton_self v)) w
  | group fence children ih =>
    exact congrArg (group fence) (fillAll_fillAll_of_forall (fun n hn vs ws => ih n hn) hvs hleaf hws)

/-! ### Visits along a list -/

theorem visitEach_cons_of_stop {visit : Visitor φ σ ε} {s : σ} {n : Node φ} {e : ε}
    (h : (visit s n).stop = some e) (ns : List (Node φ)) :
    visitEach visit s (n :: ns) = ⟨(visit s n).value :: ns, (visit s n).state, some e⟩ := by
  simp only [visitEach, h]

theorem visitEach_cons_of_none {visit : Visitor φ σ ε} {s : σ} {n : Node φ}
    (h : (visit s n).stop = none) (ns : List (Node φ)) :
    visitEach visit s (n :: ns) =
      (visitEach visit (visit s n).state ns).map ((visit s n).value :: ·) := by
  simp only [visitEach, h, Visited.map]

theorem visitEach_singleton (visit : Visitor φ σ ε) (s : σ) (n : Node φ) :
    visitEach visit s [n] = (visit s n).map ([·]) := by
  cases h : (visit s n).stop with
  | some e => rw [visitEach_cons_of_stop h, Visited.map, h]
  | none => rw [visitEach_cons_of_none h, visitEach, Visited.map, Visited.map, h]

theorem length_visitEach (visit : Visitor φ σ ε) (s : σ) (ns : List (Node φ)) :
    (visitEach visit s ns).value.length = ns.length := by
  induction ns generalizing s with
  | nil => rfl
  | cons n ns ih =>
    cases h : (visit s n).stop with
    | some e => rw [visitEach_cons_of_stop h, List.length_cons, List.length_cons]
    | none =>
      rw [visitEach_cons_of_none h, Visited.map, List.length_cons, List.length_cons, ih]

theorem visitEach_append_of_stop {visit : Visitor φ σ ε} {s : σ} {as : List (Node φ)} {e : ε}
    (h : (visitEach visit s as).stop = some e) (bs : List (Node φ)) :
    visitEach visit s (as ++ bs) = (visitEach visit s as).map (· ++ bs) := by
  induction as generalizing s with
  | nil => exact absurd h (by simp [visitEach])
  | cons a as ih =>
    rw [List.cons_append]
    cases ha : (visit s a).stop with
    | some e' =>
      rw [visitEach_cons_of_stop ha, visitEach_cons_of_stop ha]
      rfl
    | none =>
      rw [visitEach_cons_of_none ha] at h
      rw [visitEach_cons_of_none ha, visitEach_cons_of_none ha, ih h]
      rfl

/-- A visit that does not stop in the first of two lists goes on to the second. -/
theorem visitEach_append_of_none {visit : Visitor φ σ ε} {s : σ} {as : List (Node φ)}
    (h : (visitEach visit s as).stop = none) (bs : List (Node φ)) :
    visitEach visit s (as ++ bs) =
      (visitEach visit (visitEach visit s as).state bs).map ((visitEach visit s as).value ++ ·) := by
  induction as generalizing s with
  | nil => rfl
  | cons a as ih =>
    rw [List.cons_append]
    cases ha : (visit s a).stop with
    | some e =>
      rw [visitEach_cons_of_stop ha] at h
      exact absurd h (by simp)
    | none =>
      rw [visitEach_cons_of_none ha] at h
      rw [visitEach_cons_of_none ha, visitEach_cons_of_none ha, ih h]
      rfl

/-! ### A walk is a visit to the list of leaves -/

theorem walkLeavesAll_eq_of_forall {visit : Visitor φ σ ε} {ns : List (Node φ)}
    (h : ∀ n ∈ ns, ∀ s, walkLeaves visit s n = (visitEach visit s n.leaves).map (fill n)) (s : σ) :
    walkLeavesAll visit s ns = (visitEach visit s (leavesAll ns)).map (fillAll ns) := by
  induction ns generalizing s with
  | nil => rfl
  | cons n ns ih =>
    rw [List.forall_mem_cons] at h
    have hlength := length_visitEach visit s n.leaves
    rw [walkLeavesAll, h.1 s, leavesAll]
    cases hstop : (visitEach visit s n.leaves).stop with
    | some e =>
      -- The nodes behind the one where the walk stops keep their leaves.
      rw [visitEach_append_of_stop hstop]
      simp only [Visited.map, hstop]
      rw [fillAll_cons_append hlength, fillAll_leavesAll]
    | none =>
      rw [visitEach_append_of_none hstop]
      simp only [Visited.map, hstop]
      rw [ih h.2, fillAll_cons_append hlength]
      rfl

/-- **A walk is a visit to the list of leaves**, filled into the tree. -/
theorem walkLeaves_eq (visit : Visitor φ σ ε) (s : σ) (n : Node φ) :
    walkLeaves visit s n = (visitEach visit s n.leaves).map (fill n) := by
  induction n using ind generalizing s with
  | leaf l =>
    rw [walkLeaves, leaves, visitEach_singleton]
    rfl
  | fragment f =>
    rw [walkLeaves, leaves, visitEach_singleton]
    rfl
  | group fence children ih =>
    rw [walkLeaves, walkLeavesAll_eq_of_forall ih, leaves]
    rfl

theorem walkLeavesAll_eq (visit : Visitor φ σ ε) (s : σ) (ns : List (Node φ)) :
    walkLeavesAll visit s ns = (visitEach visit s (leavesAll ns)).map (fillAll ns) :=
  walkLeavesAll_eq_of_forall (fun n _ s => walkLeaves_eq visit s n) s

theorem walkLeaves_fill {n : Node φ} {vs : List (Node φ)} (hvs : vs.length = n.leaves.length)
    (hleaf : ∀ v ∈ vs, v.isGroup = false) (visit : Visitor φ σ ε) (s : σ) :
    walkLeaves visit s (fill n vs) = (visitEach visit s vs).map (fill n) := by
  have hlength := (length_visitEach visit s vs).trans hvs
  rw [walkLeaves_eq, leaves_fill hvs hleaf, Visited.map, fill_fill hvs hleaf hlength]
  rfl

/-! ### What a visitor is given -/

/-- The nodes that a visit along a list gives to the visitor, up to the one where it stops. -/
def calls (visit : Visitor φ σ ε) (s : σ) : List (Node φ) → List (Node φ)
  | [] => []
  | n :: ns => n :: if (visit s n).stop.isSome then [] else calls visit (visit s n).state ns

theorem calls_prefix (visit : Visitor φ σ ε) (s : σ) (ns : List (Node φ)) :
    calls visit s ns <+: ns := by
  induction ns generalizing s with
  | nil => exact List.prefix_rfl
  | cons n ns ih =>
    rw [calls, List.prefix_cons_inj]
    split
    · exact List.nil_prefix
    · exact ih _

theorem calls_of_stop_eq_none {visit : Visitor φ σ ε} {s : σ} {ns : List (Node φ)}
    (h : (visitEach visit s ns).stop = none) : calls visit s ns = ns := by
  induction ns generalizing s with
  | nil => rfl
  | cons n ns ih =>
    cases hn : (visit s n).stop with
    | some e =>
      rw [visitEach_cons_of_stop hn] at h
      exact absurd h (by simp)
    | none =>
      rw [visitEach_cons_of_none hn] at h
      rw [calls, hn, ih h]
      rfl

theorem stop_visitEach_steady (visit : Visitor φ σ ε) (s : σ) (ns : List (Node φ)) :
    (visitEach visit.steady s ns).stop = none := by
  induction ns generalizing s with
  | nil => rfl
  | cons n ns ih =>
    rw [visitEach_cons_of_none rfl, Visited.map]
    exact ih _

/-- **A visitor that keeps a log is given the nodes in `calls`**, and else does what it did. -/
theorem visitEach_logged (visit : Visitor φ σ ε) (s : σ) (log ns : List (Node φ)) :
    visitEach visit.logged (s, log) ns =
      ⟨(visitEach visit s ns).value, ((visitEach visit s ns).state, log ++ calls visit s ns),
        (visitEach visit s ns).stop⟩ := by
  induction ns generalizing s log with
  | nil => rw [visitEach, visitEach, calls, List.append_nil]
  | cons n ns ih =>
    cases h : (visit s n).stop with
    | some e =>
      have hlogged : (visit.logged (s, log) n).stop = some e := h
      rw [visitEach_cons_of_stop hlogged, visitEach_cons_of_stop h, calls, h]
      rfl
    | none =>
      have hlogged : (visit.logged (s, log) n).stop = none := h
      rw [visitEach_cons_of_none hlogged, visitEach_cons_of_none h, calls, h]
      show (visitEach visit.logged ((visit s n).state, log ++ [n]) ns).map _ = _
      rw [ih, List.append_assoc]
      rfl

theorem walkLeavesAll_logged (visit : Visitor φ σ ε) (s : σ) (log ns : List (Node φ)) :
    walkLeavesAll visit.logged (s, log) ns =
      ⟨(walkLeavesAll visit s ns).value,
        ((walkLeavesAll visit s ns).state, log ++ calls visit s (leavesAll ns)),
        (walkLeavesAll visit s ns).stop⟩ := by
  rw [walkLeavesAll_eq, walkLeavesAll_eq, visitEach_logged]
  rfl

end Node

end LosslessSql
