/-!
# Blank characters

The characters that separate tokens: the Unicode property `White_Space`. The information
separators U+001C to U+001F are not in it.
-/

namespace ShiftReduce.Text

/-- Whether a character has the property `White_Space`. -/
def isBlank (c : Char) : Bool :=
  let code := c.toNat
  (0x09 ≤ code && code ≤ 0x0D) || code == 0x20 || code == 0x85 || code == 0xA0 ||
    code == 0x1680 || (0x2000 ≤ code && code ≤ 0x200A) || code == 0x2028 || code == 0x2029 ||
    code == 0x202F || code == 0x205F || code == 0x3000

end ShiftReduce.Text
