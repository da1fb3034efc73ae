import LosslessSql.Node.Basic
import LosslessSql.Text.Decimal

/-!
# Snippets

The fragments that editing sessions insert: verbatim text, an integer, or a list of integers.
-/

namespace LosslessSql

/-- A fragment of a query that is given by a value. -/
inductive Snippet where
  | verbatim (s : String)
  | integer (i : Int64)
  | integers (is : List Int64)
deriving DecidableEq, Repr

namespace Snippet

def spelling : Snippet → List Char
  | .verbatim s => s.toList
  | .integer i => decimalInt i.toInt
  | .integers is => [',', ' '].intercalate (is.map fun i => decimalInt i.toInt)

instance : Fragment Snippet where
  render s := String.ofList s.spelling

end Snippet

end LosslessSql
