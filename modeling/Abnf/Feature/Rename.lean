/-
Renaming a rule.

A rule is renamed at all its definitions and references at once.  Only a rule that the document
defines can be renamed, and only to a name that passes `RuleName.check`.
-/
import Abnf.Index
import Abnf.RuleName.Check

namespace Abnf

/-- A part of a text and what takes its place. -/
structure TextEdit where
  span : Span
  newText : String
deriving DecidableEq

namespace Index

/-- The name at an offset, if it can be renamed. -/
def renameTarget? (index : Index) (offset : Nat) : Option Site :=
  (index.targetAt? offset).filter fun target => (index.definitionOf? target.name).isSome

/-- Where a name is defined and where it is referred to, in the order of the text. -/
def occurrencesOf (index : Index) (name : String) : List Span :=
  ((index.definitionsOf name).map (·.head.node.span) ++
    (index.referencesOf name).map (·.node.span)).mergeSort Span.le

/-- The edits that rename the rule at an offset; none if there is nothing to rename. -/
def rename (index : Index) (offset : Nat) (newName : String) :
    Except RuleName.Invalid (Option (List TextEdit)) := do
  RuleName.check newName
  return (index.renameTarget? offset).map fun target =>
    (index.occurrencesOf target.name).map (⟨·, newName⟩)

end Index

end Abnf
