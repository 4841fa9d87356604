/-
Definitions and references of a grammar.

A name that is the head of a rule defines the rule, unless it is the name of a core rule.  Every
other name is a reference, the names of core rules included.  `Index.ofTree` finds both in one pass
over the sites of a tree: the definitions of a rule are taken down when the rule is visited, the
references when they are (`Findings.visit`).

Definitions are kept in a list, and the places of a name's definitions in this list under its key, so
that lookups by name ignore the case of letters.
-/
import Abnf.Syntax.Site
import Abnf.Table

namespace Abnf

namespace Site

/-- Whether a site is the name at the head of a rule. -/
def isHead (s : Site) : Bool :=
  s.node.kind.isName && s.parent?.any (·.node.kind == .rule)

/-- Whether a site is a name elsewhere. -/
def isReference (s : Site) : Bool :=
  s.node.kind.isName && !s.parent?.any (·.node.kind == .rule)

/-- The name at a site, as it is written. -/
def name (s : Site) : String := s.node.spelling

/-- The name at a site, with its letters in lower case. -/
def key (s : Site) : String := RuleName.key s.name

/-- The names directly below a rule; none below anything else. -/
def heads (s : Site) : List Site :=
  if s.node.kind = .rule then s.children.filter (·.node.kind.isName) else []

end Site

/-- A rule that a document defines. -/
structure Definition where
  document : String
  /-- The name at the head of the rule. -/
  head : Site

namespace Definition

/-- The name of the rule, as it is written at its head. -/
def name (d : Definition) : String := d.head.name

/-- The rule that is defined. -/
def rule? (d : Definition) : Option Tree := d.head.parent?.map (·.node)

end Definition

/-- What a pass over the sites of a tree has found so far. -/
structure Findings where
  /-- All definitions, in the order in which they were found. -/
  definitions : List Definition
  /-- By key, where the definitions of a name are in the list of all definitions. -/
  positions : Table (List Nat)
  /-- By key, the references to a name in the order in which they were found. -/
  references : Table (List Site)

namespace Findings

def empty : Findings := ⟨[], .empty, .empty⟩

/-- Takes down a definition; the name of a core rule defines nothing. -/
def define (document : String) (found : Findings) (head : Site) : Findings :=
  if CoreRule.isName head.name then found
  else
    { found with
      definitions := found.definitions ++ [⟨document, head⟩]
      positions := found.positions.add head.key found.definitions.length }

/-- Takes down a reference. -/
def refer (found : Findings) (s : Site) : Findings :=
  { found with references := found.references.add s.key s }

/-- Takes down what there is to know about a site: the definitions at a rule, or a reference. -/
def visit (document : String) (found : Findings) (s : Site) : Findings :=
  let found := s.heads.foldl (define document) found
  if s.isReference then found.refer s else found

end Findings

/-- What is known about a document. -/
structure Index where
  document : String
  tree : SyntaxTree
  /-- All definitions, in the order of the text. -/
  definitions : List Definition
  /-- By key, where the definitions of a name are in the list of all definitions. -/
  positions : Table (List Nat)
  /-- The references by name, each list in the order of the text. -/
  references : Table (List Site)

namespace Index

/-- The index of a document. -/
def ofTree (document : String) (tree : SyntaxTree) : Index :=
  let found := tree.sites.foldl (Findings.visit document) .empty
  { document
    tree
    definitions := found.definitions
    positions := found.positions
    references := found.references }

/-- The definitions of a name. -/
def definitionsOf (index : Index) (name : String) : List Definition :=
  (index.positions.itemsOf (RuleName.key name)).filterMap (index.definitions[·]?)

/-- The first definition of a name, to which the name refers. -/
def definitionOf? (index : Index) (name : String) : Option Definition :=
  (index.definitionsOf name).head?

/-- The references to a name. -/
def referencesOf (index : Index) (name : String) : List Site :=
  index.references.itemsOf (RuleName.key name)

/-- The name around an offset. -/
def targetAt? (index : Index) (offset : Nat) : Option Site := index.tree.targetAt? offset

end Index

end Abnf
