/-
What is shown for the name under the cursor.

A core rule shows its description, also where the document defines a rule of that name.  Any other
rule shows its first definition: the name as written there, the text of its elements, and how often
the document refers to it.
-/
import Abnf.Index
import Abnf.Text.Blank

namespace Abnf

/-- What is known about a rule. -/
inductive HoverContent where
  | core (rule : CoreRule)
  | rule (name body : String) (references : Nat)
deriving DecidableEq

/-- What is known about the rule whose name stands at a span. -/
structure HoverCard where
  span : Span
  content : HoverContent
deriving DecidableEq

namespace Index

/-- The text of the elements of a definition, without the blanks at its ends. -/
def bodyOf (index : Index) (d : Definition) : String :=
  match d.rule?.bind fun rule => rule.children.find? (·.kind == .elements) with
  | none => ""
  | some elements => String.ofList (index.tree.textOf elements).trim

/-- What is known about a name. -/
def hoverContent? (index : Index) (name : String) : Option HoverContent :=
  match CoreRule.find? name with
  | some rule => some (.core rule)
  | none =>
    (index.definitionOf? name).map fun d =>
      .rule d.name (index.bodyOf d) (index.referencesOf name).length

/-- What is known about the name at an offset. -/
def hover? (index : Index) (offset : Nat) : Option HoverCard := do
  let target ← index.targetAt? offset
  let content ← index.hoverContent? target.name
  return ⟨target.node.span, content⟩

end Index

end Abnf
