/-
Messages on a stream of bytes.

A message is preceded by header lines and an empty line; the header `Content-Length` tells how many
bytes the message has.
-/
import Abnf.Json.Writer
import Abnf.Text.Decimal

namespace Abnf.Frame

/-- A text without the blanks at its ends. -/
def strip (cs : List Char) : List Char :=
  ((cs.dropWhile Char.isWhitespace).reverse.dropWhile Char.isWhitespace).reverse

/-- The length that a header line tells, if it tells one. -/
def lengthOfLine? (line : String) : Option Nat :=
  let cs := line.toList
  let name := strip (cs.takeWhile (· != ':'))
  let value := strip ((cs.dropWhile (· != ':')).drop 1)
  if (String.ofList name).map Char.toLower == "content-length" && Text.isDigits value then
    some (Text.decimalValue value)
  else
    none

/-- The length that header lines tell; the last one that tells a length counts. -/
def length? (headers : List String) : Option Nat := (headers.filterMap lengthOfLine?).getLast?

/-- A message with the version of the protocol. -/
def withVersion : Json → Json
  | .obj fields => .obj (("jsonrpc", .str "2.0") :: fields)
  | value => value

/-- A message with its header. -/
def write (message : Json) : String :=
  let body := (withVersion message).render
  "Content-Length: " ++ toString body.utf8ByteSize ++ "\r\n\r\n" ++ body

end Abnf.Frame
