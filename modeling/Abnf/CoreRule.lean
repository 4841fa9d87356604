/-
The core rules of ABNF.

`CoreRule.all` lists the sixteen rules that every grammar may use without defining them, and
`CoreRule.find?` looks one up by name.  A parser needs no more than their names and keeps a list of its own,
`CoreRule.names`.  The names of the two lists are the same (`CoreRule.map_name_all`), so both tell the same names
apart (`CoreRule.isListed_eq_isName`).
-/
import Abnf.RuleName.Key

namespace Abnf

/-- A predefined rule and what it matches. -/
structure CoreRule where
  name : String
  description : String
deriving DecidableEq

namespace CoreRule

/-- The core rules, in alphabetical order. -/
def all : List CoreRule :=
  [⟨"ALPHA", "ASCII alphabetic characters (A-Z, a-z)"⟩,
    ⟨"BIT", "Binary digit (0 or 1)"⟩,
    ⟨"CHAR", "Any US-ASCII character (octets 0-127)"⟩,
    ⟨"CR", "Carriage return"⟩,
    ⟨"CRLF", "Internet standard newline (CRLF)"⟩,
    ⟨"CTL", "Control characters"⟩,
    ⟨"DIGIT", "Decimal digit (0-9)"⟩,
    ⟨"DQUOTE", "Double quote"⟩,
    ⟨"HEXDIG", "Hexadecimal digit (0-9, A-F, a-f)"⟩,
    ⟨"HTAB", "Horizontal tab"⟩,
    ⟨"LF", "Linefeed"⟩,
    ⟨"LWSP", "Linear white space (per RFC 7405)"⟩,
    ⟨"OCTET", "Any octet (8-bit data)"⟩,
    ⟨"SP", "Space"⟩,
    ⟨"VCHAR", "Visible (printing) characters"⟩,
    ⟨"WSP", "White space (SP or HTAB)"⟩]

/-- The core rule of a name, whatever the case of its letters. -/
def find? (name : String) : Option CoreRule :=
  all.find? fun rule => RuleName.key rule.name == RuleName.key name

/-- Whether a name is that of a core rule, whatever the case of its letters. -/
def isName (name : String) : Bool := (find? name).isSome

/-! ### The names for a parser -/

/-- The names of the core rules that a parser knows. -/
def names : List String :=
  ["ALPHA", "BIT", "CHAR", "CR", "CRLF", "CTL", "DIGIT", "DQUOTE", "HEXDIG", "HTAB", "LF", "LWSP", "OCTET",
    "SP", "VCHAR", "WSP"]

/-- Whether a parser takes a name for that of a core rule, whatever the case of its letters. -/
def isListed (name : String) : Bool := names.any fun core => RuleName.key core == RuleName.key name

theorem map_name_all : all.map CoreRule.name = names := rfl

theorem isListed_eq_isName (name : String) : isListed name = isName name := by
  rw [isListed, ← map_name_all, List.any_map, isName, find?, List.isSome_find?]
  rfl

end CoreRule

end Abnf
