import LosslessSql.Node.Walk

/-!
# Named and numbered parameters

Databases take parameters by number, people write them by name.  Numbering gives each name its rank
in the order of first sight and remembers the names; naming puts them back.

* `numberParam`: the visitor that numbers, with the names seen so far as its state.
* `nameParam`: the visitor that puts in place of a numbered parameter the name at its position.
-/

namespace LosslessSql

/-- The names seen after `name` has been met, in the order of first sight. -/
def meetName (names : List String) (name : String) : List String :=
  if name ∈ names then names else names ++ [name]

/-- The rank of a name among those seen, counted from one. -/
def rankOf (names : List String) (name : String) : Nat :=
  names.idxOf name + 1

namespace Node

variable {φ σ ε : Type}

def numberParam : Visitor φ (List String) ε
  | names, .leaf (.named name) =>
    let names' := meetName names name
    ⟨ordinal (Int64.ofNat (rankOf names' name)), names', none⟩
  | names, n => ⟨n, names, none⟩

/-- Turns a numbered parameter into the one named by the argument at its position.  If there is no
such argument, the parameter stays and its position is the error. -/
def nameParam (args : List String) : Visitor φ σ Nat := fun s n =>
  match n.ordinalIndex? with
  | none => ⟨n, s, none⟩
  | some i =>
    match args[i]? with
    | some name => ⟨named name, s, none⟩
    | none => ⟨n, s, some i⟩

end Node

end LosslessSql
