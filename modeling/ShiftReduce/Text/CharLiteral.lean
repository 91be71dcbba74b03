import ShiftReduce.Text.Graphic

/-!
# Character literals

A character is written between single quotes. The single quote, the backslash and the usual
control characters have short escapes, a character that is not graphic is written by its code
point, and every other character stands for itself. A double quote needs no escape here.
-/

namespace ShiftReduce.Text

/-- A code point as `\u` followed by its lower-case hexadecimal digits in braces. -/
def codePointEscape (c : Char) : String :=
  "\\u\x7b" ++ String.ofList (Nat.toDigits 16 c.toNat) ++ "\x7d"

/-- What stands between the quotes of a character literal. -/
def escapeChar (c : Char) : String :=
  if c.toNat = 0 then "\\0"
  else if c = '\t' then "\\t"
  else if c = '\r' then "\\r"
  else if c = '\n' then "\\n"
  else if c = '\'' then "\\'"
  else if c = '\\' then "\\\\"
  else if isGraphic c then c.toString
  else codePointEscape c

/-- A character as a quoted literal. -/
def charLiteral (c : Char) : String :=
  "'" ++ escapeChar c ++ "'"

end ShiftReduce.Text
