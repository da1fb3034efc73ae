/-!
# Sets of code points

A large class of characters is a table of closed ranges of code points.
-/

namespace LosslessSql

abbrev CodePoints := List (Nat × Nat)

namespace CodePoints

def has (ranges : CodePoints) (c : Char) : Bool :=
  ranges.any fun (first, last) => first ≤ c.toNat && c.toNat ≤ last

end CodePoints

end LosslessSql
