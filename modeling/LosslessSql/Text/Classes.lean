/-!
# Classes of characters

The classes that decide where a lexeme ends.  All of them hold ASCII characters only.
-/

namespace LosslessSql

/-- A blank: a space, a tab, a vertical tab, a carriage return or a line feed. -/
def isBlank (c : Char) : Bool :=
  c == ' ' || c == '\t' || c == '\x0b' || c == '\r' || c == '\n'

def isLineBreak (c : Char) : Bool :=
  c == '\r' || c == '\n'

/-- A character that may begin a name: an ASCII letter or an underscore. -/
def isNameStart (c : Char) : Bool :=
  c.isAlpha || c == '_'

def isNamePart (c : Char) : Bool :=
  c.isAlphanum || c == '_'

end LosslessSql
