/-
Syntax trees.

A `Tree` is a token or a node with the trees below it.  A node spans from its first child to its
last one (`Tree.branch`); only the root and an empty body of a rule are given their spans.

* `Tree.leaves` are the tokens of a tree from left to right;
* `Tree.hasError` tells whether some part of a tree is malformed;
* `Tree.sexp` writes the named nodes of a tree as an S-expression.
-/
import Abnf.Syntax.Token

namespace Abnf

/-- A token, or a node with its children from left to right. -/
inductive Tree where
  | leaf (token : Token)
  | node (kind : Kind) (span : Span) (children : List Tree)

namespace Tree

def kind : Tree → Kind
  | leaf token => token.kind
  | node kind _ _ => kind

def span : Tree → Span
  | leaf token => token.span
  | node _ span _ => span

def children : Tree → List Tree
  | leaf _ => []
  | node _ _ children => children

/-- From the start of the first tree to the stop of the last one; without bytes at an offset if
there is no tree. -/
def spanOf (trees : List Tree) (offset : Nat) : Span :=
  match trees.head?, trees.getLast? with
  | some first, some last => ⟨first.span.start, last.span.stop⟩
  | _, _ => .empty offset

theorem spanOf_eq {trees : List Tree} (h : trees ≠ []) (offset : Nat) :
    spanOf trees offset = ⟨(trees.head h).span.start, (trees.getLast h).span.stop⟩ := by
  rw [spanOf, List.head?_eq_some_head h, List.getLast?_eq_some_getLast h]

/-- Where there are trees, the offset for none does not matter. -/
theorem spanOf_of_ne_nil {trees : List Tree} (h : trees ≠ []) (offset offset' : Nat) :
    spanOf trees offset = spanOf trees offset' := by
  rw [spanOf_eq h, spanOf_eq h]

/-- A node that spans its children. -/
def branch (kind : Kind) (children : List Tree) : Tree :=
  node kind (spanOf children 0) children

def isError (t : Tree) : Bool := t.kind == .error

mutual

/-- The number of nodes and tokens of a tree. -/
def size : Tree → Nat
  | leaf _ => 1
  | node _ _ children => 1 + sizeAll children

/-- The number of nodes and tokens of some trees. -/
def sizeAll : List Tree → Nat
  | [] => 0
  | t :: ts => size t + sizeAll ts

end

mutual

/-- The tokens of a tree from left to right. -/
def leaves : Tree → List Token
  | leaf token => [token]
  | node _ _ children => leavesAll children

/-- The tokens of some trees from left to right. -/
def leavesAll : List Tree → List Token
  | [] => []
  | t :: ts => leaves t ++ leavesAll ts

end

@[simp]
theorem leaves_leaf (t : Token) : (leaf t).leaves = [t] := rfl

@[simp]
theorem leaves_node (k : Kind) (s : Span) (ts : List Tree) :
    (node k s ts).leaves = leavesAll ts := rfl

@[simp]
theorem leaves_branch (k : Kind) (ts : List Tree) : (branch k ts).leaves = leavesAll ts := rfl

@[simp]
theorem leavesAll_nil : leavesAll [] = [] := rfl

@[simp]
theorem leavesAll_cons (t : Tree) (ts : List Tree) :
    leavesAll (t :: ts) = t.leaves ++ leavesAll ts := rfl

@[simp]
theorem leavesAll_append (ts us : List Tree) :
    leavesAll (ts ++ us) = leavesAll ts ++ leavesAll us := by
  induction ts with
  | nil => rfl
  | cons t ts ih => simp [ih]

@[simp]
theorem leavesAll_map_leaf (tokens : List Token) : leavesAll (tokens.map leaf) = tokens := by
  induction tokens with
  | nil => rfl
  | cons t ts ih => simp [ih]

/-- The tokens of a tree, written without what stands between them. -/
def spelling (t : Tree) : String := String.ofList (t.leaves.flatMap Token.text)

mutual

/-- Whether a tree holds an error node or an unknown token. -/
def hasError : Tree → Bool
  | leaf token => token.kind == .error || token.kind == .unknown
  | node kind _ children => kind == .error || kind == .unknown || anyError children

/-- Whether one of some trees holds an error node or an unknown token. -/
def anyError : List Tree → Bool
  | [] => false
  | t :: ts => hasError t || anyError ts

end

mutual

/-- The named nodes of a tree as an S-expression. -/
def sexp : Tree → String
  | leaf token => "(" ++ token.kind.name ++ ")"
  | node kind _ children => "(" ++ kind.name ++ sexpAll children ++ ")"

/-- The S-expressions of the named ones of some trees, each after a space. -/
def sexpAll : List Tree → String
  | [] => ""
  | t :: ts => (if t.kind.isNamed then " " ++ sexp t else "") ++ sexpAll ts

end

/-- A tree by its kind and span, as in `rulename@0..5`. -/
def label (t : Tree) : String :=
  s!"{t.kind.name}@{t.span.start}..{t.span.stop}"

end Tree

end Abnf
