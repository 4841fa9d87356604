/-
Kinds of nodes and tokens.

Composite nodes come first, then the tokens that can be leaves of a tree, then the kinds that stand
in no tree.  `Kind.name` is the name under which a kind is shown: a word for what a grammar is made
of and the spelling itself for punctuation.
-/

namespace Abnf

/-- What a node of a syntax tree or a token of a grammar is. -/
inductive Kind where
  | sourceFile
  | rule
  | rulename
  | coreRulename
  | definedAs
  | elements
  | alternation
  | concatenation
  | repetition
  | repeatCount
  | group
  | option
  | error
  | identifier
  | charVal
  | numVal
  | proseVal
  | comment
  | number
  | equals
  | incrementalEquals
  | slash
  | leftParen
  | rightParen
  | leftBracket
  | rightBracket
  | star
  | unknown
  | whitespace
  | newline
  | endOfText
  | tombstone
deriving DecidableEq

namespace Kind

/-- All kinds, in the order in which they are listed. -/
def all : List Kind :=
  [sourceFile, rule, rulename, coreRulename, definedAs, elements, alternation, concatenation,
    repetition, repeatCount, group, option, error, identifier, charVal, numVal, proseVal, comment,
    number, equals, incrementalEquals, slash, leftParen, rightParen, leftBracket, rightBracket,
    star, unknown, whitespace, newline, endOfText, tombstone]

/-- The name under which a kind is shown. -/
def name : Kind → String
  | sourceFile => "source_file"
  | rule => "rule"
  | rulename => "rulename"
  | coreRulename => "core_rulename"
  | definedAs => "defined_as"
  | elements => "elements"
  | alternation => "alternation"
  | concatenation => "concatenation"
  | repetition => "repetition"
  | repeatCount => "repeat"
  | group => "group"
  | option => "option"
  | error => "ERROR"
  | identifier => "identifier"
  | charVal => "char_val"
  | numVal => "num_val"
  | proseVal => "prose_val"
  | comment => "comment"
  | number => "number"
  | equals => "="
  | incrementalEquals => "=/"
  | slash => "/"
  | leftParen => "("
  | rightParen => ")"
  | leftBracket => "["
  | rightBracket => "]"
  | star => "*"
  | unknown => "unknown"
  | whitespace => "whitespace"
  | newline => "newline"
  | endOfText => "end"
  | tombstone => "tombstone"

/-- Whether nodes of this kind are shown in an S-expression: all but numbers, punctuation and
unknown tokens. -/
def isNamed : Kind → Bool
  | number | equals | incrementalEquals | slash | leftParen | rightParen | leftBracket
  | rightBracket | star | unknown => false
  | _ => true

/-- Whether this is the name of a rule, as the head of a rule or as a reference. -/
def isName : Kind → Bool
  | rulename | coreRulename => true
  | _ => false

/-- Every kind is listed. -/
theorem mem_all (k : Kind) : k ∈ all := by cases k <;> decide

end Kind

end Abnf
