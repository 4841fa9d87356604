/-
Blank characters: the Unicode property White_Space.

`trim` removes the blank characters at both ends of a text, and none inside it.
-/
import Abnf.Text.Bytes

namespace Abnf.Text

/-- Whether a character has the Unicode property White_Space. -/
def isBlank (c : Char) : Bool :=
  let n := c.toNat
  (0x9 ≤ n && n ≤ 0xd) || n == 0x20 || n == 0x85 || n == 0xa0 || n == 0x1680 ||
    (0x2000 ≤ n && n ≤ 0x200a) || n == 0x2028 || n == 0x2029 || n == 0x202f || n == 0x205f ||
    n == 0x3000

/-- A text without the blank characters at its end. -/
def trimEnd (text : Text) : Text := (text.reverse.dropWhile isBlank).reverse

/-- A text without the blank characters at its two ends. -/
def trim (text : Text) : Text := trimEnd (text.dropWhile isBlank)

end Abnf.Text
