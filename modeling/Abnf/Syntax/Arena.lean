/-
Trees as lists of nodes.

In an arena the nodes of a tree stand in a list, and a node is known by its place in this list.  It is
made from a record of the tree: events that tell where a node starts, which tokens stand in it and where
it ends.  `Arena.Builder` goes through the events one by one.  A token or a node goes behind those that
are there, below the innermost open node, and the span of a node is known when the node ends.

A place is kept in a word, which can tell a number of places apart; with a number of 0, it can tell all
places apart.
-/
import Abnf.Syntax.Token

namespace Abnf

/-- A part of the record of a tree.  The start of a node that did not become one is left behind as the
start of a tombstone. -/
inductive Event where
  | start (kind : Kind)
  | token (kind : Kind) (span : Span)
  | finish
deriving DecidableEq

namespace Arena

/-- A node, with the places of its parent and of its children. -/
structure Node where
  kind : Kind
  span : Span
  parent? : Option Nat
  children : List Nat
deriving DecidableEq

/-- A part of a tree that is being put together. -/
structure Builder where
  /-- How many places a word can tell apart. -/
  words : Nat
  nodes : List Node
  /-- The places of the open nodes, the innermost one first. -/
  opened : List Nat
  /-- Where the last token stops. -/
  lastStop : Nat
deriving DecidableEq

namespace Builder

def empty (words : Nat) : Builder := ⟨words, [], [], 0⟩

/-- The place that the next node will have. -/
def next (b : Builder) : Nat := b.nodes.length % b.words

/-- Puts a node behind the others, below the innermost open one. -/
def push (b : Builder) (kind : Kind) (span : Span) : Builder :=
  let nodes := b.nodes ++ [⟨kind, span, b.opened.head?, []⟩]
  match b.opened with
  | [] => { b with nodes }
  | parent :: _ =>
    { b with nodes := nodes.modify parent fun p => { p with children := p.children ++ [b.next] } }

/-- Opens a node. -/
def startNode (b : Builder) (kind : Kind) : Builder :=
  { b.push kind (.empty b.lastStop) with opened := b.next :: b.opened }

def token (b : Builder) (kind : Kind) (span : Span) : Builder :=
  { b.push kind span with lastStop := span.stop }

/-- From the start of the first of some nodes to the stop of the last one; without bytes after the last
token if there is no node. -/
def spanOf (b : Builder) (children : List Nat) : Span :=
  match children.head?.bind (b.nodes[·]?), children.getLast?.bind (b.nodes[·]?) with
  | some first, some last => ⟨first.span.start, last.span.stop⟩
  | _, _ => .empty b.lastStop

/-- Ends the innermost open node, if there is one. -/
def finishNode? (b : Builder) : Option Builder :=
  match b.opened with
  | [] => none
  | id :: opened =>
    some { b with nodes := b.nodes.modify id fun n => { n with span := b.spanOf n.children }, opened }

/-- Goes on with an event. -/
def step? (b : Builder) : Event → Option Builder
  | .start .tombstone => some b
  | .start kind => some (b.startNode kind)
  | .token kind span => some (b.token kind span)
  | .finish => b.finishNode?

/-- The nodes of a tree that is complete.  There is a root, and it covers the whole text. -/
def finish? (b : Builder) (length : Nat) : Option (List Node) :=
  if b.opened.isEmpty then
    let b := if b.nodes.isEmpty then b.push .sourceFile (.empty 0) else b
    some (b.nodes.modify 0 fun n => { n with span := ⟨0, length⟩ })
  else none

end Builder

/-- The nodes of the tree of which there is a record, over a text of some length; none if the events are
not balanced. -/
def build? (words length : Nat) (events : List Event) : Option (List Node) :=
  (events.foldlM Builder.step? (.empty words)).bind (·.finish? length)

end Arena

end Abnf
