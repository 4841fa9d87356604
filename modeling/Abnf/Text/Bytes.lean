/-
Texts, measured in bytes.

A `Text` is the list of its characters.  Offsets into it count the bytes of its UTF-8 encoding, so
that `byteLength` is the offset of its end and `slice` is the part that a span covers.
-/
import Abnf.Text.Span

namespace Abnf

/-- A text as the list of its characters. -/
abbrev Text := List Char

namespace Text

/-- The number of bytes of a text. -/
def byteLength : Text → Nat
  | [] => 0
  | c :: cs => c.utf8Size + byteLength cs

/-- What is left of a text after its first `n` bytes.  A character that is cut is dropped whole. -/
def dropBytes : Nat → Text → Text
  | _, [] => []
  | 0, c :: cs => c :: cs
  | n + 1, c :: cs => dropBytes (n + 1 - c.utf8Size) cs

/-- The characters that end within the first `n` bytes of a text. -/
def takeBytes : Nat → Text → Text
  | _, [] => []
  | n, c :: cs => if c.utf8Size ≤ n then c :: takeBytes (n - c.utf8Size) cs else []

/-- The part of a text that a span covers. -/
def slice (text : Text) (s : Span) : Text :=
  takeBytes s.length (dropBytes s.start text)

theorem byteLength_append (s t : Text) :
    byteLength (s ++ t) = byteLength s + byteLength t := by
  induction s with
  | nil => simp [byteLength]
  | cons c cs ih => simp [byteLength, ih, Nat.add_assoc]

end Text

end Abnf
