/-
The outline of a document: one symbol for each definition.
-/
import Abnf.Index

namespace Abnf

/-- A rule in an outline. -/
structure RuleSymbol where
  name : String
  /-- The whole rule. -/
  range : Span
  /-- The name at its head. -/
  selection : Span
deriving DecidableEq

namespace Index

/-- The definitions of a document as symbols, in the order of the text. -/
def symbols (index : Index) : List RuleSymbol :=
  index.definitions.map fun d =>
    { name := d.name
      range := (d.rule?.getD d.head.node).span
      selection := d.head.node.span }

end Index

end Abnf
