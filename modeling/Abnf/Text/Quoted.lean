/-
Quoted characters and strings.

A quoted character stands in single quotes and a quoted string in double quotes.  The quote itself,
the backslash, NUL, tab, CR and LF are written with a backslash, and every other character that is
not shown as it is by its code point in hexadecimal.
-/
import Abnf.Text.Printable

namespace Abnf.Text

/-- A character by its code point. -/
def codePointEscape (c : Char) : List Char :=
  ['\\', 'u', '\x7b'] ++ Nat.toDigits 16 c.toNat ++ ['\x7d']

/-- A character between two quotes. -/
def escape (quote c : Char) : List Char :=
  if c = quote ∨ c = '\\' then ['\\', c]
  else if c = '\x00' then ['\\', '0']
  else if c = '\t' then ['\\', 't']
  else if c = '\r' then ['\\', 'r']
  else if c = '\n' then ['\\', 'n']
  else if isPrintable c then [c]
  else codePointEscape c

/-- A character in single quotes. -/
def quotedChar (c : Char) : String :=
  String.ofList (['\''] ++ escape '\'' c ++ ['\''])

/-- A string in double quotes. -/
def quoted (s : String) : String :=
  String.ofList (['"'] ++ s.toList.flatMap (escape '"') ++ ['"'])

/-- Texts in brackets, with commas between them. -/
def bracketed (items : List String) : String := "[" ++ ", ".intercalate items ++ "]"

end Abnf.Text
