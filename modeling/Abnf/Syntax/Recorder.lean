/-
Recording a tree.

A text can be read in one pass that makes no trees but keeps a record of them.  A `Recorder` goes through
the tokens of a text and writes events.  To begin a node, it writes the start of a tombstone and hands out
a marker, which is the place of this event.  A marker is closed in one of two ways: the node is completed,
which gives the event its kind and writes an end, or it is abandoned, which takes the event back if
nothing was written after it and leaves the tombstone otherwise.

The procedures below are those of the grammar, one for each part of a grammar.  While they run, nothing is
taken for granted: whatever would be a mistake is a `Fault`.  The openers that are being read are counted,
and no more of them are entered than the nesting limit allows.

A marker is kept in a word, which can tell a number of places apart, and the repetitions of a concatenation
are counted in a word, which can hold the numbers below a number; with a number of 0, there is no bound.  A
marker that does not fit starts from 0 again, and nothing is noticed before the place is not that of a
tombstone.  A count that does not fit is a fault.  `record32` records a text with the words of a machine.
-/
import Abnf.CoreRule
import Abnf.Syntax.Arena

namespace Abnf

/-- What must not happen while a tree is recorded. -/
inductive Fault where
  /-- A token behind the end of the text is asked for. -/
  | pastEnd
  /-- The end of the text is to be taken as a token. -/
  | endTaken
  /-- A loop goes on without having taken a token. -/
  | standstill
  /-- More openers are entered than are counted. -/
  | tooDeep
  /-- A rule is begun inside of an opener. -/
  | ruleInside
  /-- A marker is closed that is not the latest one that is open. -/
  | outOfOrder
  /-- A marker is closed whose event is not the start of a tombstone. -/
  | noTombstone
  /-- A loop goes round more often than can be counted. -/
  | countTooHigh
deriving DecidableEq

/-- A record of a tree that is being read. -/
structure Recorder where
  /-- How many places a word can tell apart. -/
  words : Nat
  /-- How many numbers a count can hold. -/
  counts : Nat
  /-- How many openers may be entered inside of each other. -/
  limit : Nat
  /-- The tokens of the text; the last one is the end of the text. -/
  tokens : List Token
  /-- How many tokens were taken. -/
  position : Nat
  events : List Event
  /-- How many openers were entered and not left. -/
  depth : Nat
  /-- The markers that were handed out and not closed, the latest one first. -/
  markers : List Nat
deriving DecidableEq

/-- A step of a recorder. -/
abbrev Recording (α : Type) : Type := StateT Recorder (Except Fault) α

namespace Recorder

/-- Before the first token of a text, with counts of any size. -/
def ofText (words limit : Nat) (source : Text) : Recorder where
  words := words
  counts := 0
  limit := limit
  tokens := (Token.scan source).filter fun t => t.kind != .whitespace && t.kind != .newline
  position := 0
  events := []
  depth := 0
  markers := []

/-- The tokens that were not taken. -/
def ahead (s : Recorder) : List Token := s.tokens.drop s.position

end Recorder

namespace Event

def ofToken (t : Token) : Event := .token t.kind t.span

end Event

namespace Recording

/-! ### Tokens -/

/-- The next token after the comments. -/
def current : Recording Token := fun s =>
  match s.ahead.dropWhile Token.isComment with
  | [] => .error .pastEnd
  | t :: _ => .ok (t, s)

/-- The kind of the next token of the current rule: the first token of a line reads as the end. -/
def peek : Recording Kind := do
  let t ← current
  return if t.atLineStart then .endOfText else t.kind

def isAt (kind : Kind) : Recording Bool := do
  return (← peek) == kind

/-- Takes the comments at the front. -/
def flush : Recording Unit := fun s =>
  match s.ahead.dropWhile Token.isComment with
  | [] => .error .pastEnd
  | _ :: _ =>
    let comments := s.ahead.takeWhile Token.isComment
    .ok ((), { s with
      position := s.position + comments.length
      events := s.events ++ comments.map Event.ofToken })

/-- Takes the first token. -/
def shift : Recording Unit := fun s =>
  match s.ahead with
  | [] => .error .pastEnd
  | t :: _ =>
    if t.kind = .endOfText then .error .endTaken
    else .ok ((), { s with position := s.position + 1, events := s.events ++ [Event.ofToken t] })

/-- Takes the comments at the front and the token after them. -/
def bump : Recording Unit := do
  flush
  shift

/-! ### Markers -/

/-- Writes a tombstone and hands out a marker for it. -/
def mark : Recording Nat := fun s =>
  let marker := s.events.length % s.words
  .ok (marker, { s with events := s.events ++ [.start .tombstone], markers := marker :: s.markers })

/-- Begins a node.  The comments before it go into the node around it; there is none around the first
one. -/
def start : Recording Nat := do
  unless (← get).events.isEmpty do flush
  mark

/-- Takes back the latest marker. -/
def close (marker : Nat) : Recording Unit := fun s =>
  match s.markers with
  | [] => .error .outOfOrder
  | latest :: markers =>
    if latest ≠ marker then .error .outOfOrder
    else if s.events[marker]? ≠ some (.start .tombstone) then .error .noTombstone
    else .ok ((), { s with markers })

/-- Makes an event the start of a node and writes an end. -/
def overwrite (marker : Nat) (kind : Kind) : Recording Unit :=
  modify fun s => { s with events := s.events.set marker (.start kind) ++ [.finish] }

/-- Completes a node. -/
def complete (marker : Nat) (kind : Kind) : Recording Unit := do
  close marker
  overwrite marker kind

/-- Gives a node up. -/
def abandon (marker : Nat) : Recording Unit := do
  close marker
  modify fun s => if marker + 1 = s.events.length then { s with events := s.events.dropLast } else s

/-- Records a node: begins it, records what is in it and completes it. -/
def node (kind : Kind) (x : Recording Unit) : Recording Unit := do
  let m ← start
  x
  complete m kind

/-! ### Loops -/

/-- How often a step is taken for as long as a condition holds. -/
def rounds (p : Recording Bool) (x : Recording Unit) (s : Recorder) : Except Fault (Nat × Recorder) :=
  match p s with
  | .error fault => .error fault
  | .ok (false, _) => .ok (0, s)
  | .ok (true, _) =>
    match x s with
    | .error fault => .error fault
    | .ok ((), next) =>
      if next.ahead.length < s.ahead.length then
        (rounds p x next).map fun (n, last) => (n + 1, last)
      else .error .standstill
termination_by s.ahead.length

/-- Takes a step for as long as a condition holds, and tells how often. -/
def repeatWhile (p : Recording Bool) (x : Recording Unit) : Recording Nat := fun s => rounds p x s

/-- Takes a step for as long as a condition holds, and counts the rounds. -/
def countWhile (p : Recording Bool) (x : Recording Unit) : Recording Nat := do
  let count ← repeatWhile p x
  let s ← get
  if s.counts ≠ 0 ∧ s.counts ≤ count then throw .countTooHigh else return count

/-- Takes a step for as long as a condition holds. -/
def many (p : Recording Bool) (x : Recording Unit) : Recording Unit := do
  let _ ← repeatWhile p x

/-! ### Elements -/

/-- Records the next token as the name of a rule. -/
def name : Recording Unit := do
  let t ← current
  node (if CoreRule.isListed (String.ofList t.text) then .coreRulename else .rulename) bump

/-- Records what an opener encloses, one level deeper. -/
def deeper : Option (Recording Unit) → Recording Unit
  | none => throw .tooDeep
  | some body => do
    modify fun s => { s with depth := s.depth + 1 }
    body
    modify fun s => { s with depth := s.depth - 1 }

/-- Takes the next token if it is of a kind. -/
def ifAt (kind : Kind) : Recording Unit := do
  if ← isAt kind then bump

/-- Records an opener and, up to the nesting limit, what it encloses. -/
def bracketed (kind close : Kind) (body : Option (Recording Unit)) : Recording Unit := do
  let m ← start
  bump
  let s ← get
  if s.limit ≤ s.depth then
    complete m .error
  else
    deeper body
    ifAt close
    complete m kind

/-- Records the element that starts with a token of a kind, if one does. -/
def elementAt (body : Option (Recording Unit)) : Kind → Recording Unit
  | .identifier => name
  | .leftParen => bracketed .group .rightParen body
  | .leftBracket => bracketed .option .rightBracket body
  | .charVal | .numVal | .proseVal => bump
  | _ => return ()

/-- Records an element, if there is one. -/
def element (body : Option (Recording Unit)) : Recording Unit := do
  elementAt body (← peek)

/-- Records how often an element is repeated. -/
def repeatCount : Recording Unit := node .repeatCount do
  ifAt .number
  if ← isAt .star then
    bump
    ifAt .number

/-- Records an element with the repeat before it. -/
def repetition (body : Option (Recording Unit)) : Recording Unit := do
  if (← isAt .number) || (← isAt .star) then
    node .repetition do
      repeatCount
      element body
  else
    element body

/-- Whether a token of a kind starts a repetition. -/
def startsRepetition : Kind → Bool
  | .identifier | .leftParen | .leftBracket | .charVal | .numVal | .proseVal | .number | .star => true
  | _ => false

/-- Records repetitions; two or more become a node. -/
def concatenation (body : Option (Recording Unit)) : Recording Unit := do
  let m ← start
  let count ← countWhile (do return startsRepetition (← peek)) (repetition body)
  if 2 ≤ count then complete m .concatenation else abandon m

/-- Records concatenations with slashes between them; two or more become a node. -/
def alternationOver (body : Option (Recording Unit)) : Recording Unit := do
  let m ← start
  concatenation body
  if ← isAt .slash then
    many (isAt .slash) (do bump; concatenation body)
    complete m .alternation
  else
    abandon m

/-- Records an alternation in which openers are entered up to some levels. -/
def alternation : Nat → Recording Unit
  | 0 => alternationOver none
  | levels + 1 => alternationOver (some fun s => alternation levels s)

/-! ### Rules -/

/-- Whether the current rule has a next token. -/
def inRule : Recording Bool := do
  return (← peek) != .endOfText

/-- Records the alternations of a rule and the stray tokens between them. -/
def elements (levels : Nat) : Recording Unit := node .elements do
  alternation levels
  many inRule do
    node .error bump
    alternation levels

/-- Records what says that a rule is defined, if there is anything. -/
def definedAs : Recording Unit := do
  if (← isAt .equals) || (← isAt .incrementalEquals) then node .definedAs bump

/-- Records a rule. -/
def rule (levels : Nat) : Recording Unit := do
  if (← get).depth ≠ 0 then throw .ruleInside
  node .rule do
    name
    definedAs
    elements levels

/-- Records a token that is not part of a rule. -/
def junkItem : Recording Unit := do
  if (← current).kind = .identifier then name else bump

/-- Records a token and all up to the next token that starts a line. -/
def junk : Recording Unit := node .error do
  junkItem
  many inRule junkItem

/-- Records a rule or a line that is none. -/
def entry (levels : Nat) : Recording Unit := do
  let t ← current
  if t.kind = .identifier ∧ t.atLineStart = true then rule levels else junk

/-- Whether there is a token other than comments. -/
def hasNext : Recording Bool := do
  return (← current).kind != .endOfText

/-- Records a whole text. -/
def sourceFile (levels : Nat) : Recording Unit := node .sourceFile do
  many hasNext (entry levels)
  flush

end Recording

/-- The record of a text, with counts of some size. -/
def recordCounting (counts words limit : Nat) (source : Text) : Except Fault Recorder :=
  (Recording.sourceFile limit { Recorder.ofText words limit source with counts }).map Prod.snd

/-- The record of a text, with counts of any size. -/
def record (words limit : Nat) (source : Text) : Except Fault Recorder :=
  recordCounting 0 words limit source

/-- The record of a text with words of 32 bits.  A count has a sign, which leaves half of the numbers. -/
def record32 (limit : Nat) (source : Text) : Except Fault Recorder :=
  recordCounting (UInt32.size / 2) UInt32.size limit source

end Abnf
