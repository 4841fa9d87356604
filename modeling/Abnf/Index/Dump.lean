/-
Indexes and trees on one line, for looking into them.
-/
import Abnf.Index
import Abnf.Text.Quoted

namespace Abnf

/-- A name and its fields, as in `Name { field: value }`. -/
def Dump.record (name : String) (fields : List (String × String)) (isPartial : Bool) : String :=
  let shown := fields.map fun f => f.1 ++ ": " ++ f.2
  name ++ " \x7b " ++ ", ".intercalate (shown ++ if isPartial then [".."] else []) ++ " \x7d"

namespace Site

/-- The number of a site. -/
def dump (s : Site) : String := s!"NodeId({s.id})"

end Site

namespace Definition

def dump (d : Definition) : String :=
  Dump.record "RuleDefinition"
    [("name", Text.quoted d.name), ("node", d.head.dump), ("document", Text.quoted d.document)]
    false

end Definition

namespace SyntaxTree

def dump (tree : SyntaxTree) : String :=
  Dump.record "SyntaxTree" [("root", Text.quoted tree.root.sexp)] false

end SyntaxTree

namespace Index

/-- The document, the definitions and the references of an index. -/
def dump (index : Index) : String :=
  let references := index.references.entries.map fun entry =>
    Text.quoted entry.1 ++ ": " ++ Text.bracketed (entry.2.map Site.dump)
  Dump.record "DocumentIndex"
    [("document", Text.quoted index.document),
      ("definitions", Text.bracketed (index.definitions.map Definition.dump)),
      ("references", "\x7b" ++ ", ".intercalate references ++ "\x7d")]
    true

end Index

end Abnf
