import LosslessSql.Node.Basic

/-!
# The leaves of a tree

Reading a tree from left to right meets its leaves; groups are transparent, and an empty group has
none.

* `Node.leaves`: all leaves of a node in order.
* `Node.firstLeaf?`, `Node.lastLeaf?`: the ends of that list, found without building it.
* `Node.replaceFirstLeaf?`, `Node.replaceLastLeaf?`: puts another node into the slot of that leaf.
* `Node.visible`: what a look at a node shows: the nodes directly under it, or a leaf itself.
-/

namespace LosslessSql.Node

variable {φ : Type}

def visible : Node φ → List (Node φ)
  | .group _ children => children
  | n => [n]

mutual

def leaves : Node φ → List (Node φ)
  | .leaf l => [.leaf l]
  | .fragment f => [.fragment f]
  | .group _ children => leavesAll children

def leavesAll : List (Node φ) → List (Node φ)
  | [] => []
  | n :: ns => leaves n ++ leavesAll ns

end

theorem leavesAll_eq_flatMap (ns : List (Node φ)) : leavesAll ns = ns.flatMap leaves := by
  induction ns with
  | nil => rfl
  | cons n ns ih => rw [leavesAll, List.flatMap_cons, ih]

/-! ### The first leaf -/

mutual

def firstLeaf? : Node φ → Option (Node φ)
  | .leaf l => some (.leaf l)
  | .fragment f => some (.fragment f)
  | .group _ children => firstLeafAll? children

/-- The leftmost leaf of a sequence; nodes without leaves are passed over. -/
def firstLeafAll? : List (Node φ) → Option (Node φ)
  | [] => none
  | n :: ns =>
    match firstLeaf? n with
    | some l => some l
    | none => firstLeafAll? ns

end

mutual

def replaceFirstLeaf? (new : Node φ) : Node φ → Option (Node φ)
  | .leaf _ => some new
  | .fragment _ => some new
  | .group fence children => (replaceFirstLeafAll? new children).map (.group fence)

def replaceFirstLeafAll? (new : Node φ) : List (Node φ) → Option (List (Node φ))
  | [] => none
  | n :: ns =>
    match replaceFirstLeaf? new n with
    | some n' => some (n' :: ns)
    | none => (replaceFirstLeafAll? new ns).map (n :: ·)

end

/-! ### The last leaf -/

mutual

def lastLeaf? : Node φ → Option (Node φ)
  | .leaf l => some (.leaf l)
  | .fragment f => some (.fragment f)
  | .group _ children => lastLeafAll? children

def lastLeafAll? : List (Node φ) → Option (Node φ)
  | [] => none
  | n :: ns =>
    match lastLeafAll? ns with
    | some l => some l
    | none => lastLeaf? n

end

mutual

def replaceLastLeaf? (new : Node φ) : Node φ → Option (Node φ)
  | .leaf _ => some new
  | .fragment _ => some new
  | .group fence children => (replaceLastLeafAll? new children).map (.group fence)

def replaceLastLeafAll? (new : Node φ) : List (Node φ) → Option (List (Node φ))
  | [] => none
  | n :: ns =>
    match replaceLastLeafAll? new ns with
    | some ns' => some (n :: ns')
    | none => (replaceLastLeaf? new n).map (· :: ns)

end

end LosslessSql.Node
