/-
Grammars with their syntax trees.

`parse` reads any text into a `SyntaxTree`: the root spans the whole text, and its leaves are the
tokens of the text other than blanks and line breaks.  Groups and options are nested up to a limit.
-/
import Abnf.Syntax.Grammar

namespace Abnf

/-- A text and the tree that was read from it. -/
structure SyntaxTree where
  source : Text
  root : Tree

/-- How deep groups and options are nested if nothing else is asked for. -/
def defaultNestingLimit : Nat := 128

/-- The syntax tree of a text, with groups and options nested up to a limit. -/
def parse (limit : Nat) (source : Text) : SyntaxTree where
  source := source
  root := .node .sourceFile ⟨0, source.byteLength⟩
    ((Grammar.ruleList limit).read (Token.significant source)).1

namespace SyntaxTree

/-- The text that a node covers. -/
def textOf (tree : SyntaxTree) (node : Tree) : Text := tree.source.slice node.span

/-- The point at which a node starts. -/
def startPoint (tree : SyntaxTree) (node : Tree) : Point := tree.source.pointOf node.span.start

/-- The point at which a node stops. -/
def stopPoint (tree : SyntaxTree) (node : Tree) : Point := tree.source.pointOf node.span.stop

end SyntaxTree

end Abnf
