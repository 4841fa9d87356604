/-
Going from a name to its definition and to its other occurrences.
-/
import Abnf.Index

namespace Abnf

/-- A part of a document. -/
structure Location where
  document : String
  span : Span
deriving DecidableEq

namespace Definition

/-- Where the head of a definition stands. -/
def location (d : Definition) : Location := ⟨d.document, d.head.node.span⟩

end Definition

namespace Index

/-- Where the name at an offset is first defined. -/
def gotoDefinition? (index : Index) (offset : Nat) : Option Location := do
  let target ← index.targetAt? offset
  let definition ← index.definitionOf? target.name
  return definition.location

/-- The references to the name at an offset, after its definitions if these are asked for. -/
def findReferences (index : Index) (offset : Nat) (includeDefinitions : Bool) : List Location :=
  match index.targetAt? offset with
  | none => []
  | some target =>
    let definitions := if includeDefinitions then index.definitionsOf target.name else []
    definitions.map Definition.location ++
      (index.referencesOf target.name).map fun s => ⟨index.document, s.node.span⟩

end Index

end Abnf
