/-
Rule lists without their layout, and the ways to write them.

An `Abstract.Rule` is a name, whether it adds to an earlier definition, and an alternation.  Names,
numbers and values keep their spelling; every one of them carries the proof that it is well formed, and
alternations and concatenations have at least one part.

`Written` relates rules to the texts that RFC 5234 allows for them.  A gap stands where the RFC has
`*c-wsp`: spaces, tabs, and ends of lines, with or without a comment, that a space or tab follows.  A
rule stands in the first column and ends with its line; lines without a rule may stand anywhere between
rules.  Strings, numeric values and prose may hold more characters here than the RFC gives them.
-/
import Abnf.Syntax.Token

namespace Abnf.Abstract

open Token

/-! ### Names, numbers and values -/

/-- A letter, followed by letters, digits and hyphens. -/
structure Name where
  text : Text
  valid : (text.head?.any Char.isAlpha && text.all isNameChar) = true
deriving DecidableEq

/-- One or more decimal digits. -/
structure Digits where
  text : Text
  valid : (!text.isEmpty && text.all Char.isDigit) = true
deriving DecidableEq

/-- Characters of one line up to, and without, a closing character. -/
structure Enclosed (close : Char) where
  text : Text
  valid : text.all (fun c => c != close && !Text.isRowBreak c) = true
deriving DecidableEq

/-- The letter after a percent sign that says whether the case of a string matters. -/
structure Mark where
  letter : Char
  valid : (letter.toLower == 's' || letter.toLower == 'i') = true
deriving DecidableEq

/-- The base of a numeric value and what follows it: a letter or digit, then letters, digits, dots and
hyphens. -/
structure Numeric where
  base : Char
  text : Text
  valid : ((base.toLower == 'b' || base.toLower == 'd' || base.toLower == 'x') &&
    text.head?.any Char.isAlphanum && text.all isNumValChar) = true
deriving DecidableEq

/-- A string, a numeric value or a prose value. -/
inductive Value where
  | string (mark : Option Mark) (body : Enclosed '"')
  | numeric (n : Numeric)
  | prose (body : Enclosed '>')
deriving DecidableEq

namespace Value

def kind : Value → Kind
  | string _ _ => .charVal
  | numeric _ => .numVal
  | prose _ => .proseVal

def text : Value → Text
  | string none body => '"' :: (body.text ++ ['"'])
  | string (some mark) body => '%' :: mark.letter :: '"' :: (body.text ++ ['"'])
  | numeric n => '%' :: n.base :: n.text
  | prose body => '<' :: (body.text ++ ['>'])

end Value

/-- How often an element is repeated: a number of times, or between two numbers that may be left
out. -/
inductive Repeat where
  | exactly (count : Digits)
  | between (low high : Option Digits)
deriving DecidableEq

def Repeat.text : Repeat → Text
  | exactly count => count.text
  | between low high => (low.elim [] Digits.text) ++ '*' :: (high.elim [] Digits.text)

/-! ### Rules -/

mutual

inductive Element where
  | name (n : Name)
  | value (v : Value)
  | group (body : Alternation)
  | option (body : Alternation)

inductive Repetition where
  | mk (count : Option Repeat) (element : Element)

/-- One or more repetitions. -/
inductive Concatenation where
  | one (r : Repetition)
  | cons (r : Repetition) (c : Concatenation)

/-- One or more concatenations. -/
inductive Alternation where
  | one (c : Concatenation)
  | cons (c : Concatenation) (a : Alternation)

end

mutual

/-- How deep groups and options are nested. -/
def Element.depth : Element → Nat
  | .name _ | .value _ => 0
  | .group body | .option body => body.depth + 1

def Repetition.depth : Repetition → Nat
  | .mk _ element => element.depth

def Concatenation.depth : Concatenation → Nat
  | .one r => r.depth
  | .cons r c => max r.depth c.depth

def Alternation.depth : Alternation → Nat
  | .one c => c.depth
  | .cons c a => max c.depth a.depth

end

structure Rule where
  name : Name
  /-- Whether the rule adds to an earlier definition. -/
  incremental : Bool
  body : Alternation

/-- The sign between the name of a rule and its body. -/
def Rule.sign (r : Rule) : Text := if r.incremental then ['=', '/'] else ['=']

/-! ### Layout -/

/-- The ends of lines. -/
inductive LineBreak : Text → Prop
  | crlf : LineBreak ['\r', '\n']
  | lf : LineBreak ['\n']
  | cr : LineBreak ['\r']

/-- The end of a line, with or without a comment before it. -/
inductive LineEnd : Text → Prop
  | plain {b : Text} : LineBreak b → LineEnd b
  | comment {body b : Text} : (∀ c ∈ body, Text.isRowBreak c = false) → LineBreak b →
      LineEnd (';' :: (body ++ b))

/-- What may stand between the parts of a rule. -/
inductive Gap : Text → Prop
  | nil : Gap []
  | blank {c : Char} {g : Text} : isSpaceOrTab c = true → Gap g → Gap (c :: g)
  | fold {e g : Text} {c : Char} : LineEnd e → isSpaceOrTab c = true → Gap g →
      Gap (e ++ c :: g)

mutual

inductive Element.Written : Element → Text → Prop
  | name (n : Name) : Element.Written (.name n) n.text
  | value (v : Value) : Element.Written (.value v) v.text
  | group {a : Alternation} {g t g' : Text} : Gap g → Alternation.Written a t → Gap g' →
      Element.Written (.group a) ('(' :: (g ++ (t ++ (g' ++ [')']))))
  | option {a : Alternation} {g t g' : Text} : Gap g → Alternation.Written a t → Gap g' →
      Element.Written (.option a) ('[' :: (g ++ (t ++ (g' ++ [']']))))

inductive Repetition.Written : Repetition → Text → Prop
  | plain {e : Element} {t : Text} : Element.Written e t → Repetition.Written (.mk none e) t
  | counted (r : Repeat) {e : Element} {t : Text} : Element.Written e t →
      Repetition.Written (.mk (some r) e) (r.text ++ t)

inductive Concatenation.Written : Concatenation → Text → Prop
  | one {r : Repetition} {t : Text} : Repetition.Written r t → Concatenation.Written (.one r) t
  | cons {r : Repetition} {c : Concatenation} {t g u : Text} : Repetition.Written r t → Gap g →
      g ≠ [] → Concatenation.Written c u → Concatenation.Written (.cons r c) (t ++ (g ++ u))

inductive Alternation.Written : Alternation → Text → Prop
  | one {c : Concatenation} {t : Text} : Concatenation.Written c t → Alternation.Written (.one c) t
  | cons {c : Concatenation} {a : Alternation} {t g g' u : Text} : Concatenation.Written c t →
      Gap g → Gap g' → Alternation.Written a u →
      Alternation.Written (.cons c a) (t ++ (g ++ '/' :: (g' ++ u)))

end

/-- A rule with the end of its line. -/
inductive Rule.Written : Rule → Text → Prop
  | mk {r : Rule} {g g' t g'' e : Text} : Gap g → Gap g' → r.body.Written t → Gap g'' →
      LineEnd e → Rule.Written r (r.name.text ++ (g ++ (r.sign ++ (g' ++ (t ++ (g'' ++ e))))))

/-- Rules, with lines that hold none before, between and after them. -/
inductive Written : List Rule → Text → Prop
  | nil : Written [] []
  | skip {rs : List Rule} {g e t : Text} : Gap g → LineEnd e → Written rs t →
      Written rs (g ++ (e ++ t))
  | rule {r : Rule} {rs : List Rule} {t u : Text} : r.Written t → Written rs u →
      Written (r :: rs) (t ++ u)

end Abnf.Abstract
