import LosslessSql.Node.Basic

/-!
# Equality of trees

Two trees are the same if they have the same shape and the same leaves.  Fragments are compared by
their texts, since nothing else is known of them; a fragment is never the same as a leaf, even if
the two are spelled alike.
-/

namespace LosslessSql.Node

variable {φ : Type} [Fragment φ]

mutual

def same : Node φ → Node φ → Bool
  | .leaf a, .leaf b => a == b
  | .fragment a, .fragment b => Fragment.render a == Fragment.render b
  | .group f as, .group g bs => f == g && sameAll as bs
  | _, _ => false

def sameAll : List (Node φ) → List (Node φ) → Bool
  | [], [] => true
  | a :: as, b :: bs => same a b && sameAll as bs
  | _, _ => false

end

instance : BEq (Node φ) := ⟨same⟩

end LosslessSql.Node
