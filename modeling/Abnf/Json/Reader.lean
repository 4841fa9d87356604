/-
Reading JSON.

A text is cut into lexemes, and the lexemes are taken one by one by `State.step`, which keeps the
containers that are still open in a list of frames.  `Json.parse?` succeeds on a text that is one
value with blanks around and inside it, and on no other text.
-/
import Abnf.Json.Basic
import Abnf.Text.Decimal

namespace Abnf.Json

/-- The pieces that JSON is written with; a scalar is a value that is no array and no object. -/
inductive Lexeme where
  | openArray
  | closeArray
  | openObject
  | closeObject
  | comma
  | colon
  | scalar (value : Json)

/-! ### Strings -/

/-- The value of a hexadecimal digit. -/
def hexValue? (c : Char) : Option Nat :=
  if c.isDigit then some (c.toNat - '0'.toNat)
  else if 'a' ≤ c ∧ c ≤ 'f' then some (c.toNat - 'a'.toNat + 10)
  else if 'A' ≤ c ∧ c ≤ 'F' then some (c.toNat - 'A'.toNat + 10)
  else none

/-- How many characters there are up to and with the quote that closes a string. -/
def closingQuote? : List Char → Option Nat
  | [] => none
  | '"' :: _ => some 1
  | '\\' :: _ :: cs => (closingQuote? cs).map (· + 2)
  | _ :: cs => (closingQuote? cs).map (· + 1)

/-- The character that a letter after a backslash stands for. -/
def escaped? (c : Char) : Option Char :=
  if c = '"' ∨ c = '\\' ∨ c = '/' then some c
  else if c = 'b' then some '\x08'
  else if c = 'f' then some '\x0c'
  else if c = 'n' then some '\n'
  else if c = 'r' then some '\r'
  else if c = 't' then some '\t'
  else none

/-- The code points and surrogates of what stands between the quotes of a string. -/
def codes? : List Char → Option (List Nat)
  | [] => some []
  | '\\' :: 'u' :: a :: b :: c :: d :: cs => do
    let a ← hexValue? a
    let b ← hexValue? b
    let c ← hexValue? c
    let d ← hexValue? d
    let more ← codes? cs
    return (((a * 16 + b) * 16 + c) * 16 + d) :: more
  | '\\' :: c :: cs => do
    let c ← escaped? c
    let more ← codes? cs
    return c.toNat :: more
  | c :: cs => if c.toNat < 0x20 ∨ c = '\\' then none else (codes? cs).map (c.toNat :: ·)

/-- The characters of code points and surrogates; a surrogate must be part of a pair. -/
def joinSurrogates? : List Nat → Option (List Char)
  | [] => some []
  | [n] => if 0xd800 ≤ n ∧ n < 0xe000 then none else some [Char.ofNat n]
  | n :: m :: ns =>
    if 0xd800 ≤ n ∧ n < 0xdc00 then
      if 0xdc00 ≤ m ∧ m < 0xe000 then
        (joinSurrogates? ns).map
          (Char.ofNat (0x10000 + (n - 0xd800) * 0x400 + (m - 0xdc00)) :: ·)
      else none
    else if 0xdc00 ≤ n ∧ n < 0xe000 then none
    else (joinSurrogates? (m :: ns)).map (Char.ofNat n :: ·)

/-- The string that is written between two quotes. -/
def unescape? (cs : List Char) : Option String :=
  ((codes? cs).bind joinSurrogates?).map String.ofList

/-! ### Numbers -/

/-- Whether the characters are empty, or a letter `e`, a sign or none, and digits. -/
def isExponent : List Char → Bool
  | [] => true
  | e :: '+' :: cs => e.toLower == 'e' && Text.isDigits cs
  | e :: '-' :: cs => e.toLower == 'e' && Text.isDigits cs
  | e :: cs => e.toLower == 'e' && Text.isDigits cs

/-- Whether the characters may follow the integer part of a number. -/
def isFraction : List Char → Bool
  | '.' :: cs =>
    Text.isDigits (cs.takeWhile Char.isDigit) && isExponent (cs.dropWhile Char.isDigit)
  | cs => isExponent cs

/-- The number that characters write.  A zero with a minus sign is no integer. -/
def number? (cs : List Char) : Option Json :=
  let negative := cs.head? == some '-'
  let body := if negative then cs.drop 1 else cs
  let whole := body.takeWhile Char.isDigit
  let rest := body.dropWhile Char.isDigit
  if Text.isNatural whole && isFraction rest then
    let n := Text.decimalValue whole
    if rest.isEmpty && !(negative && n == 0) then
      some (int (if negative then -(n : Int) else n))
    else
      some (real (String.ofList cs))
  else
    none

/-! ### Lexemes -/

def isBlank (c : Char) : Bool := c == ' ' || c == '\t' || c == '\n' || c == '\r'

def isNumberChar (c : Char) : Bool :=
  c.isDigit || c == '-' || c == '+' || c == '.' || c == 'e' || c == 'E'

/-- The value of a word. -/
def word? (cs : List Char) : Option Json :=
  if cs = ['n', 'u', 'l', 'l'] then some null
  else if cs = ['t', 'r', 'u', 'e'] then some (bool true)
  else if cs = ['f', 'a', 'l', 's', 'e'] then some (bool false)
  else none

/-- The lexeme that starts with `c`, and how many of the characters `cs` after it belong to it. -/
def lexeme? (c : Char) (cs : List Char) : Option (Lexeme × Nat) :=
  if c = '[' then some (.openArray, 0)
  else if c = ']' then some (.closeArray, 0)
  else if c = '\x7b' then some (.openObject, 0)
  else if c = '\x7d' then some (.closeObject, 0)
  else if c = ',' then some (.comma, 0)
  else if c = ':' then some (.colon, 0)
  else if c = '"' then do
    let n ← closingQuote? cs
    let s ← unescape? (cs.take (n - 1))
    return (.scalar (str s), n)
  else if c.isAlpha then
    let n := (cs.takeWhile Char.isAlpha).length
    (word? (c :: cs.take n)).map (.scalar ·, n)
  else
    let n := (cs.takeWhile isNumberChar).length
    (number? (c :: cs.take n)).map (.scalar ·, n)

/-- The lexemes of a text, after those that are already there in reverse. -/
def lexemesOnto? (done : List Lexeme) : List Char → Option (List Lexeme)
  | [] => some done.reverse
  | c :: cs =>
    if isBlank c then lexemesOnto? done cs
    else
      match lexeme? c cs with
      | none => none
      | some (l, n) => lexemesOnto? (l :: done) (cs.drop n)
termination_by cs => cs.length
decreasing_by all_goals simp only [List.length_drop, List.length_cons]; omega

/-- The lexemes of a text. -/
def lexemes? (cs : List Char) : Option (List Lexeme) := lexemesOnto? [] cs

/-! ### Values -/

/-- A container in which a value is being read, with what it holds so far in reverse. -/
inductive Frame where
  | items (done : List Json)
  | field (done : List (String × Json)) (name : String)

/-- What may come next, and the containers around it. -/
inductive State where
  /-- A value, or the end of an array that has no item. -/
  | value (frames : List Frame) (mayClose : Bool)
  /-- A name, or the end of an object that has no field. -/
  | name (frames : List Frame) (done : List (String × Json)) (mayClose : Bool)
  /-- The colon after a name. -/
  | colon (frames : List Frame) (done : List (String × Json)) (name : String)
  /-- A comma or the end of an array. -/
  | afterItem (frames : List Frame) (done : List Json)
  /-- A comma or the end of an object. -/
  | afterField (frames : List Frame) (done : List (String × Json))
  /-- Nothing: the value is complete. -/
  | complete (value : Json)

namespace State

/-- A value has been read inside some containers. -/
def place (value : Json) : List Frame → State
  | [] => complete value
  | .items done :: frames => afterItem frames (value :: done)
  | .field done n :: frames => afterField frames ((n, value) :: done)

/-- Takes a lexeme, if it may come next. -/
def step : State → Lexeme → Option State
  | value frames _, .scalar v => some (place v frames)
  | value frames _, .openArray => some (value (.items [] :: frames) true)
  | value frames _, .openObject => some (name frames [] true)
  | value (.items [] :: frames) true, .closeArray => some (place (arr []) frames)
  | name frames done _, .scalar (str n) => some (colon frames done n)
  | name frames [] true, .closeObject => some (place (obj []) frames)
  | colon frames done n, .colon => some (value (.field done n :: frames) false)
  | afterItem frames done, .comma => some (value (.items done :: frames) false)
  | afterItem frames done, .closeArray => some (place (arr done.reverse) frames)
  | afterField frames done, .comma => some (name frames done false)
  | afterField frames done, .closeObject => some (place (obj done.reverse) frames)
  | _, _ => none

end State

/-- The value that a text writes. -/
def parse? (text : String) : Option Json := do
  let lexemes ← lexemes? text.toList
  match ← lexemes.foldlM State.step (.value [] false) with
  | .complete value => some value
  | _ => none

end Abnf.Json
