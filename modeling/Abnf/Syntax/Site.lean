/-
Sites: nodes with their places in a tree.

A `Site` is a node together with its number and its ancestors.  Numbers count the nodes and
tokens of a tree in pre-order from the root, which is number 0.

* `SyntaxTree.sites` lists the sites of a tree in the order of their numbers;
* `SyntaxTree.siteAt?` finds the smallest node around an offset;
* `SyntaxTree.targetAt?` finds the name of a rule around an offset.
-/
import Abnf.Syntax.Document

namespace Abnf

/-- A node, its number, and its ancestors with their numbers, from the parent to the root. -/
structure Site where
  id : Nat
  node : Tree
  ancestors : List (Nat × Tree)

namespace Site

def root (tree : Tree) : Site := ⟨0, tree, []⟩

/-- The site of the parent. -/
def parent? (s : Site) : Option Site :=
  match s.ancestors with
  | [] => none
  | (id, node) :: ancestors => some ⟨id, node, ancestors⟩

/-- The sites of sibling trees, of which the first has a given number. -/
def siblings (ancestors : List (Nat × Tree)) : Nat → List Tree → List Site
  | _, [] => []
  | id, t :: ts => ⟨id, t, ancestors⟩ :: siblings ancestors (id + t.size) ts

/-- The sites of the children from left to right. -/
def children (s : Site) : List Site :=
  siblings ((s.id, s.node) :: s.ancestors) (s.id + 1) s.node.children

def child? (s : Site) (index : Nat) : Option Site := s.children[index]?

mutual

/-- The sites of a tree in pre-order. -/
def preorder (id : Nat) (ancestors : List (Nat × Tree)) : Tree → List Site
  | .leaf token => [⟨id, .leaf token, ancestors⟩]
  | .node kind span children =>
    ⟨id, .node kind span children, ancestors⟩ ::
      preorderAll (id + 1) ((id, .node kind span children) :: ancestors) children

/-- The sites of sibling trees in pre-order. -/
def preorderAll (id : Nat) (ancestors : List (Nat × Tree)) : List Tree → List Site
  | [] => []
  | t :: ts => preorder id ancestors t ++ preorderAll (id + t.size) ancestors ts

end

mutual

/-- The smallest node around an offset in a tree that contains it; the first child that contains the
offset is entered. -/
def around (offset id : Nat) (ancestors : List (Nat × Tree)) : Tree → Site
  | .leaf token => ⟨id, .leaf token, ancestors⟩
  | .node kind span children =>
    (aroundAny? offset (id + 1) ((id, .node kind span children) :: ancestors) children).getD
      ⟨id, .node kind span children, ancestors⟩

/-- The smallest node around an offset in the first of some trees that contains it. -/
def aroundAny? (offset id : Nat) (ancestors : List (Nat × Tree)) : List Tree → Option Site
  | [] => none
  | t :: ts =>
    if t.span.contains offset then some (around offset id ancestors t)
    else aroundAny? offset (id + t.size) ancestors ts

end

/-- The name of a rule at a site: the node itself or, for a token of a name, its parent. -/
def target? (s : Site) : Option Site :=
  if s.node.kind.isName then some s else s.parent?.filter (·.node.kind.isName)

end Site

namespace SyntaxTree

def rootSite (tree : SyntaxTree) : Site := .root tree.root

/-- All sites of a tree, in the order of their numbers. -/
def sites (tree : SyntaxTree) : List Site := Site.preorder 0 [] tree.root

/-- The site of a number. -/
def site? (tree : SyntaxTree) (id : Nat) : Option Site := tree.sites[id]?

/-- The smallest node whose span contains an offset. -/
def siteAt? (tree : SyntaxTree) (offset : Nat) : Option Site :=
  if tree.root.span.contains offset then some (Site.around offset 0 [] tree.root) else none

/-- The name of a rule whose span contains an offset. -/
def targetAt? (tree : SyntaxTree) (offset : Nat) : Option Site :=
  (tree.siteAt? offset).bind Site.target?

/-- The name of a rule at a row and column. -/
def targetAtPoint? (tree : SyntaxTree) (p : Point) : Option Site :=
  (tree.source.offsetOf? p).bind tree.targetAt?

end SyntaxTree

end Abnf
