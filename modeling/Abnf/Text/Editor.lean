/-
Positions as editors count them.

An editor's line ends with LF, CR, CRLF, VT, FF, NEL, LS or PS, and a column counts UTF-16 units.
`editorPositionOf` gives the position of an offset and `editorOffsetOf?` the offset of a position.
A column past the end of its line means the end of the line without its final LF, and a column
inside a surrogate pair means the character that the pair encodes.

A buffer of lines finds the position of an offset by counting characters and never goes past the end of a
line (`clampedPositionOf`).  Between two characters this gives the same position.
-/
import Abnf.Text.Line

namespace Abnf

/-- A zero-based line and a column in UTF-16 units. -/
structure EditorPosition where
  line : Nat
  character : Nat
deriving DecidableEq

/-- The part of a text between two editor positions. -/
structure EditorRange where
  start : EditorPosition
  stop : EditorPosition
deriving DecidableEq

namespace Text

/-- The characters that end a line in an editor. -/
def isEditorBreak (c : Char) : Bool :=
  c == '\n' || c == '\r' || c == '\x0b' || c == '\x0c' || c == '\u0085' || c == '\u2028' ||
    c == '\u2029'

/-- The number of UTF-16 units of a character. -/
def utf16Size (c : Char) : Nat := if c.toNat < 0x10000 then 1 else 2

/-- The number of UTF-16 units of a text. -/
def utf16Length : Text → Nat
  | [] => 0
  | c :: cs => utf16Size c + utf16Length cs

/-- The characters that end within the first `n` UTF-16 units of a text. -/
def takeUtf16 : Nat → Text → Text
  | _, [] => []
  | n, c :: cs => if utf16Size c ≤ n then c :: takeUtf16 (n - utf16Size c) cs else []

/-- A line without the LF at its end. -/
def withoutFinalLineFeed (line : Text) : Text :=
  if line.getLast? = some '\n' then line.dropLast else line

/-- The number of lines that an editor shows. -/
def editorLineCount (text : Text) : Nat := (lineStarts isEditorBreak text).length

/-- The position of an offset; an offset past the end of the text means its end. -/
def editorPositionOf (text : Text) (offset : Nat) : EditorPosition :=
  let offset := min offset (byteLength text)
  let (line, start) := lineAt isEditorBreak text offset
  ⟨line, utf16Length (slice text ⟨start, offset⟩)⟩

/-- The position of an offset, found in a line without its final LF.  The characters before the offset are counted,
and those before the line are taken off; if they are more than the line has, the column is the end of the line. -/
def clampedPositionOf (text : Text) (offset : Nat) : EditorPosition :=
  let count := (takeBytes (min offset (byteLength text)) text).length
  let (line, start) := lineAt isEditorBreak text (byteLength (text.take count))
  let stop := (lineStarts isEditorBreak text)[line + 1]?.getD (byteLength text)
  let content := withoutFinalLineFeed (slice text ⟨start, stop⟩)
  let column := count - (takeBytes start text).length
  ⟨line, utf16Length (content.take (min column content.length))⟩

/-- The offset of a position, if its line exists. -/
def editorOffsetOf? (text : Text) (p : EditorPosition) : Option Nat :=
  let starts := lineStarts isEditorBreak text
  starts[p.line]?.map fun start =>
    let stop := starts[p.line + 1]?.getD (byteLength text)
    let line := withoutFinalLineFeed (slice text ⟨start, stop⟩)
    start + byteLength (takeUtf16 p.character line)

/-- The positions of the two ends of a span. -/
def editorRangeOf (text : Text) (s : Span) : EditorRange :=
  ⟨editorPositionOf text s.start, editorPositionOf text s.stop⟩

end Text

end Abnf
