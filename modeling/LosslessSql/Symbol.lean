/-!
# Quotes and delimiters

The three quote characters and the three pairs of delimiters.
-/

namespace LosslessSql

inductive Quote where
  | single
  | double
  | grave
deriving DecidableEq, Repr

namespace Quote

/-- The character that stands at both ends of the quotation. -/
def mark : Quote → Char
  | .single => '\''
  | .double => '"'
  | .grave => '`'

def ofMark? (c : Char) : Option Quote :=
  if c = '\'' then some .single
  else if c = '"' then some .double
  else if c = '`' then some .grave
  else none

theorem ofMark?_eq_some_iff {c : Char} {q : Quote} : ofMark? c = some q ↔ c = q.mark := by
  cases q <;> simp only [ofMark?, mark] <;> grind

end Quote

inductive Delimiter where
  | paren
  | bracket
  | brace
deriving DecidableEq, Repr

namespace Delimiter

def opening : Delimiter → Char
  | .paren => '('
  | .bracket => '['
  | .brace => '{'

def closing : Delimiter → Char
  | .paren => ')'
  | .bracket => ']'
  | .brace => '}'

def ofOpening? (c : Char) : Option Delimiter :=
  if c = '(' then some .paren
  else if c = '[' then some .bracket
  else if c = '{' then some .brace
  else none

def ofClosing? (c : Char) : Option Delimiter :=
  if c = ')' then some .paren
  else if c = ']' then some .bracket
  else if c = '}' then some .brace
  else none

theorem ofOpening?_eq_some_iff {c : Char} {d : Delimiter} :
    ofOpening? c = some d ↔ c = d.opening := by
  cases d <;> simp only [ofOpening?, opening] <;> grind

theorem ofClosing?_eq_some_iff {c : Char} {d : Delimiter} :
    ofClosing? c = some d ↔ c = d.closing := by
  cases d <;> simp only [ofClosing?, closing] <;> grind

end Delimiter

end LosslessSql
