import LosslessSql.Text.Combining
import LosslessSql.Text.Unprintable

/-!
# Characters in messages

In messages a character stands between apostrophes.  The apostrophe itself, the backslash and the
control characters that have a short name are written with a backslash.  A character that would
combine with the apostrophe before it, or that cannot be printed, is written by its code point.
-/

namespace LosslessSql

/-- A character by its code point, in hexadecimal between braces. -/
def codePointEscape (c : Char) : String :=
  "\\u\x7b" ++ String.ofList (Nat.toDigits 16 c.toNat) ++ "\x7d"

/-- A character as it stands between apostrophes. -/
def escapedChar (c : Char) : String :=
  if c = '\'' then "\\'"
  else if c = '\\' then "\\\\"
  else if c = '\n' then "\\n"
  else if c = '\r' then "\\r"
  else if c = '\t' then "\\t"
  else if c = '\x00' then "\\0"
  else if combining.has c || unprintable.has c then codePointEscape c
  else String.singleton c

def quotedChar (c : Char) : String :=
  "'" ++ escapedChar c ++ "'"

end LosslessSql
