/-
Log records.

A record has a level, a text and named fields.  `LogRecord.render` writes the text and then each
field as `name=value`; a record without a text shows its target, the part of the program that it is
about.
-/

namespace Abnf

/-- How much a record matters, from errors to the smallest step. -/
inductive LogLevel where
  | error
  | warn
  | info
  | debug
  | trace
deriving DecidableEq

namespace LogLevel

/-- The place of a level, from errors on. -/
def rank : LogLevel → Nat
  | error => 1
  | warn => 2
  | info => 3
  | debug => 4
  | trace => 5

/-- The level of a name. -/
def ofName? (name : String) : Option LogLevel :=
  if name = "error" then some error
  else if name = "warn" then some warn
  else if name = "info" then some info
  else if name = "debug" then some debug
  else if name = "trace" then some trace
  else none

/-- Whether a level is logged when the most verbose level is given; none is if there is no such
level. -/
def isEnabled (level : LogLevel) : Option LogLevel → Bool
  | none => false
  | some verbosity => decide (level.rank ≤ verbosity.rank)

end LogLevel

/-- Something worth telling. -/
structure LogRecord where
  level : LogLevel
  text : String
  /-- Names and values, in the order in which they are shown. -/
  fields : List (String × String)
  target : String := "abnf_lsp"
deriving DecidableEq

namespace LogRecord

/-- A record on one line. -/
def render (r : LogRecord) : String :=
  " ".intercalate
    ((if r.text.isEmpty then r.target else r.text) ::
      r.fields.map fun f => f.1 ++ "=" ++ f.2)

end LogRecord

end Abnf
