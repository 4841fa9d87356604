/-
Lines of a text.

A class of break characters cuts a text into lines; a CR directly before an LF ends no line, so
that CRLF is one break.  `lineStarts` lists the offsets at which the lines start.

The rows of a grammar end with LF, CR or CRLF.  `pointOf` gives the row and column of an offset and
`offsetOf?` the offset of a row and column; a column past the end of its row means the row's end.
-/
import Abnf.Text.Bytes

namespace Abnf.Text

/-- Whether the character `c` ends a line when `rest` follows it. -/
def endsLine (isBreak : Char → Bool) (c : Char) (rest : Text) : Bool :=
  isBreak c && !(c == '\r' && rest.head? == some '\n')

/-- The offsets directly after the line breaks of a text that starts at an offset. -/
def breakEnds (isBreak : Char → Bool) : Nat → Text → List Nat
  | _, [] => []
  | offset, c :: cs =>
    if endsLine isBreak c cs then
      (offset + c.utf8Size) :: breakEnds isBreak (offset + c.utf8Size) cs
    else
      breakEnds isBreak (offset + c.utf8Size) cs

/-- The offsets at which the lines of a text start. -/
def lineStarts (isBreak : Char → Bool) (text : Text) : List Nat :=
  0 :: breakEnds isBreak 0 text

/-- The line that holds an offset: its number and the offset of its start. -/
def lineAt (isBreak : Char → Bool) (text : Text) (offset : Nat) : Nat × Nat :=
  let starts := (lineStarts isBreak text).takeWhile (· ≤ offset)
  (starts.length - 1, starts.getLastD 0)

/-- The lines of a text whose lines end with LF or CRLF, without these ends. -/
def linesOf : Text → List Text
  | [] => []
  | '\n' :: rest => [] :: linesOf rest
  | '\r' :: '\n' :: rest => [] :: linesOf rest
  | c :: rest =>
    match linesOf rest with
    | [] => [[c]]
    | line :: lines => (c :: line) :: lines

/-! ### Rows of a grammar -/

/-- The characters that end a row of a grammar. -/
def isRowBreak (c : Char) : Bool := c == '\n' || c == '\r'

/-- The row and column of an offset; an offset past the end of the text means its end. -/
def pointOf (text : Text) (offset : Nat) : Point :=
  let offset := min offset (byteLength text)
  let (row, start) := lineAt isRowBreak text offset
  ⟨row, offset - start⟩

/-- The offset of a row and column, if the row exists. -/
def offsetOf? (text : Text) (p : Point) : Option Nat :=
  (lineStarts isRowBreak text)[p.row]?.map fun start =>
    start + min p.column (byteLength ((dropBytes start text).takeWhile (!isRowBreak ·)))

end Abnf.Text
