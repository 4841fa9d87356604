/-
Tokens of a grammar.

`Token.scan` cuts a text into tokens: blanks, line breaks and comments included, and an empty token
at the end.  `lexeme` decides on a token from its first character and what follows it.  The texts of
the tokens, put together, are the text that was scanned, so nothing is lost.

A text that does not start any token of a grammar is an `unknown` token, as is a quoted string or a
prose value that its line does not close.
-/
import Abnf.Syntax.Kind
import Abnf.Text.Line

namespace Abnf

/-- A piece of a grammar with the offset at which it starts. -/
structure Token where
  kind : Kind
  text : Text
  start : Nat
  /-- Whether the token is the first of its line, which is where a rule may start. -/
  atLineStart : Bool
deriving DecidableEq

namespace Token

/-- The bytes that a token covers. -/
def span (t : Token) : Span := ⟨t.start, t.start + t.text.byteLength⟩

/-- Whether a token is part of a tree: blanks, line breaks and the end of the text are not. -/
def isSignificant (t : Token) : Bool :=
  t.kind != .whitespace && t.kind != .newline && t.kind != .endOfText

def isComment (t : Token) : Bool := t.kind == .comment

/-! ### Lexemes -/

def isSpaceOrTab (c : Char) : Bool := c == ' ' || c == '\t'

/-- Whether a character may follow the first one of a rule name. -/
def isNameChar (c : Char) : Bool := c.isAlphanum || c == '-'

/-- Whether a character may follow the base of a numeric value. -/
def isNumValChar (c : Char) : Bool := c.isAlphanum || c == '.' || c == '-'

/-- How many characters at the front of a text are of a class. -/
def run (p : Char → Bool) (cs : Text) : Nat := (cs.takeWhile p).length

/-- What an open delimiter starts: a token of the kind up to and with the closing character, or an
unknown token up to the end of the line if the line does not close it. -/
def delimited (kind : Kind) (close : Char) (cs : Text) : Kind × Nat :=
  let n := run (fun c => c != close && !Text.isRowBreak c) cs
  if (cs.drop n).head? = some close then (kind, n + 1) else (.unknown, n)

/-- What a percent sign starts: a string marked as case sensitive or insensitive, a numeric value in
one of three bases, or nothing known. -/
def percent : Text → Kind × Nat
  | c :: d :: cs =>
    if (c.toLower == 's' || c.toLower == 'i') && d == '"' then
      let (kind, n) := delimited .charVal '"' cs
      (kind, n + 2)
    else if (c.toLower == 'b' || c.toLower == 'd' || c.toLower == 'x') && d.isAlphanum then
      (.numVal, 1 + run isNumValChar (d :: cs))
    else
      (.unknown, 0)
  | _ => (.unknown, 0)

/-- The kind of the token that starts with `c`, and how many of the characters `cs` after it belong
to it. -/
def lexeme (c : Char) (cs : Text) : Kind × Nat :=
  if isSpaceOrTab c then (.whitespace, run isSpaceOrTab cs)
  else if c = '\r' then (.newline, if cs.head? = some '\n' then 1 else 0)
  else if c = '\n' then (.newline, 0)
  else if c = ';' then (.comment, run (fun d => !Text.isRowBreak d) cs)
  else if c.isAlpha then (.identifier, run isNameChar cs)
  else if c.isDigit then (.number, run Char.isDigit cs)
  else if c = '=' then
    if cs.head? = some '/' then (.incrementalEquals, 1) else (.equals, 0)
  else if c = '/' then (.slash, 0)
  else if c = '(' then (.leftParen, 0)
  else if c = ')' then (.rightParen, 0)
  else if c = '[' then (.leftBracket, 0)
  else if c = ']' then (.rightBracket, 0)
  else if c = '*' then (.star, 0)
  else if c = '"' then delimited .charVal '"' cs
  else if c = '<' then delimited .proseVal '>' cs
  else if c = '%' then percent cs
  else (.unknown, 0)

/-! ### Scanning -/

/-- The token that starts with `c`, before the characters `cs`. -/
def first (start : Nat) (atLineStart : Bool) (c : Char) (cs : Text) : Token where
  kind := (lexeme c cs).1
  text := c :: cs.take (lexeme c cs).2
  start := start
  atLineStart := atLineStart

/-- The tokens of a text that starts at an offset. -/
def scanFrom (start : Nat) (atLineStart : Bool) : Text → List Token
  | [] => [⟨.endOfText, [], start, atLineStart⟩]
  | c :: cs =>
    let token := first start atLineStart c cs
    token :: scanFrom token.span.stop (token.kind == .newline) (cs.drop (lexeme c cs).2)
termination_by text => text.length
decreasing_by simp only [List.length_drop, List.length_cons]; omega

/-- The tokens of a text; the last one is the end of the text. -/
def scan (text : Text) : List Token := scanFrom 0 true text

/-- The tokens of a text that are part of its tree. -/
def significant (text : Text) : List Token := (scan text).filter isSignificant

/-- The texts of the tokens of a text are the text. -/
theorem flatMap_text_scanFrom (start : Nat) (atLineStart : Bool) (text : Text) :
    (scanFrom start atLineStart text).flatMap Token.text = text := by
  fun_induction scanFrom start atLineStart text with
  | case1 => rfl
  | case2 start atLineStart c cs token ih =>
    rw [List.flatMap_cons, ih]
    simp [token, first]

end Token

end Abnf
