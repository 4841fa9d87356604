/-
Readers of trees.

A `Reader` takes trees off the front of a list of tokens.  It loses no token: the leaves of what it
read, followed by what is left, are the tokens that it was given (`Reader.keeps`).  Readers are put
together by `seq`, `choose`, `node` and `many`; a loop over a reader ends because the reader takes a
token each time (`Consumes`).

Comments stand anywhere and are never what a reader decides on.  `next?` is the first token after
them, and `peek?` is its kind unless it starts a line: in the middle of a rule the first token of a
line reads as the end.  A comment becomes a child of the node that is open when the token or node
after it is read.
-/
import Abnf.Syntax.Tree

namespace Abnf

/-- A way to take trees off the front of a list of tokens. -/
structure Reader where
  read : List Token → List Tree × List Token
  /-- No token is lost, added or moved. -/
  keeps : ∀ ts, Tree.leavesAll (read ts).1 ++ (read ts).2 = ts

namespace Reader

/-! ### What comes next -/

/-- The first token after the comments. -/
def next? (ts : List Token) : Option Token := (ts.dropWhile Token.isComment).head?

/-- The kind of the first token after the comments, if it does not start a line. -/
def peek? (ts : List Token) : Option Kind :=
  (next? ts).bind fun t => if t.atLineStart then none else some t.kind

/-- Whether the next token of the current rule is of a kind. -/
def isAt (kind : Kind) (ts : List Token) : Bool := peek? ts == some kind

/-- Whether the current rule has a next token. -/
def inRule (ts : List Token) : Bool := (peek? ts).isSome

/-- Whether there is a token other than comments. -/
def hasNext (ts : List Token) : Bool := (next? ts).isSome

/-- What a reader leaves is no longer than what it was given. -/
theorem length_le (r : Reader) (ts : List Token) : (r.read ts).2.length ≤ ts.length := by
  have h := congrArg List.length (r.keeps ts)
  simp only [List.length_append] at h
  omega

/-- Where a condition on the tokens holds, the reader takes a token. -/
def Consumes (p : List Token → Bool) (r : Reader) : Prop :=
  ∀ ts, p ts = true → (r.read ts).2.length < ts.length

/-! ### Basic readers -/

/-- Takes nothing. -/
def nothing : Reader where
  read ts := ([], ts)
  keeps _ := rfl

/-- Takes the comments at the front. -/
def comments : Reader where
  read ts := ((ts.takeWhile Token.isComment).map .leaf, ts.dropWhile Token.isComment)
  keeps ts := by simp

/-- Takes the comments at the front and the token after them, which becomes a tree. -/
def single (tree : Token → Tree) (leaves_tree : ∀ t, (tree t).leaves = [t]) : Reader where
  read ts :=
    match ts.dropWhile Token.isComment with
    | [] => ((ts.takeWhile Token.isComment).map .leaf, [])
    | t :: rest => ((ts.takeWhile Token.isComment).map .leaf ++ [tree t], rest)
  keeps ts := by
    have h := List.takeWhile_append_dropWhile (p := Token.isComment) (l := ts)
    cases hd : ts.dropWhile Token.isComment with
    | nil => simpa [hd] using h
    | cons t rest => simpa [hd, leaves_tree] using h

/-- Takes the comments at the front and the token after them, which becomes a leaf. -/
def token : Reader := single .leaf fun _ => rfl

/-! ### Combinations -/

/-- Reads with `r`, then with `s`. -/
def seq (r s : Reader) : Reader where
  read ts := ((r.read ts).1 ++ (s.read (r.read ts).2).1, (s.read (r.read ts).2).2)
  keeps ts := by simp [s.keeps, r.keeps]

/-- Reads with `r` where a condition on the tokens holds and with `s` elsewhere. -/
def choose (p : List Token → Bool) (r s : Reader) : Reader where
  read ts := if p ts then r.read ts else s.read ts
  keeps ts := by split <;> simp [r.keeps, s.keeps]

/-- Reads with a reader that is made when it is first used. -/
def delayed (r : Thunk Reader) : Reader where
  read ts := r.get.read ts
  keeps ts := r.get.keeps ts

/-- Takes the next token if it is of a kind. -/
def ifAt (kind : Kind) : Reader := choose (isAt kind) token nothing

/-- Changes the trees that were read, but not their leaves. -/
def mapTrees (f : List Tree → List Tree)
    (leavesAll_f : ∀ trees, Tree.leavesAll (f trees) = Tree.leavesAll trees) (r : Reader) :
    Reader where
  read ts := (f (r.read ts).1, (r.read ts).2)
  keeps ts := by simp [leavesAll_f, r.keeps]

/-- Takes the comments at the front, then what `r` reads as the children of a node. -/
def node (kind : Kind) (r : Reader) : Reader :=
  seq comments (mapTrees (fun trees => [.branch kind trees]) (by simp) r)

/-! ### Loops -/

/-- What `r` reads for as long as a condition on the tokens holds, one part each time. -/
def readParts (p : List Token → Bool) (r : Reader) (h : Consumes p r) (ts : List Token) :
    List (List Tree) × List Token :=
  if _ : p ts = true then
    let more := readParts p r h (r.read ts).2
    ((r.read ts).1 :: more.1, more.2)
  else
    ([], ts)
termination_by ts.length
decreasing_by exact h ts ‹_›

/-- The parts that a loop reads lose no token. -/
theorem readParts_keeps (p : List Token → Bool) (r : Reader) (h : Consumes p r)
    (ts : List Token) :
    Tree.leavesAll (readParts p r h ts).1.flatten ++ (readParts p r h ts).2 = ts := by
  fun_induction readParts p r h ts with
  | case1 ts hp more ih => simp [more, ih, r.keeps]
  | case2 ts hp => rfl

/-- Reads with `r` for as long as a condition on the tokens holds. -/
def many (p : List Token → Bool) (r : Reader) (h : Consumes p r) : Reader where
  read ts := ((readParts p r h ts).1.flatten, (readParts p r h ts).2)
  keeps := readParts_keeps p r h

/-- One part stands for itself; two or more are the children of a node. -/
def wrapParts (kind : Kind) (parts : List (List Tree)) : List Tree :=
  if 2 ≤ parts.length then [.branch kind parts.flatten] else parts.flatten

/-- Wrapping does not change the leaves. -/
theorem leavesAll_wrapParts (kind : Kind) (parts : List (List Tree)) :
    Tree.leavesAll (wrapParts kind parts) = Tree.leavesAll parts.flatten := by
  unfold wrapParts
  split <;> simp

/-- Reads with `r` for as long as a condition on the tokens holds, and wraps two or more parts in a
node. -/
def wrapped (kind : Kind) (p : List Token → Bool) (r : Reader) (h : Consumes p r) : Reader where
  read ts := (wrapParts kind (readParts p r h ts).1, (readParts p r h ts).2)
  keeps ts := by simpa [leavesAll_wrapParts] using readParts_keeps p r h ts

/-- Reads with `first`, then with `r` for as long as a condition on the tokens holds, and wraps the
whole in a node if `r` was used. -/
def wrappedAfter (kind : Kind) (first : Reader) (p : List Token → Bool) (r : Reader)
    (h : Consumes p r) : Reader where
  read ts :=
    let rest := readParts p r h (first.read ts).2
    (wrapParts kind ((first.read ts).1 :: rest.1), rest.2)
  keeps ts := by
    have := readParts_keeps p r h (first.read ts).2
    simp [leavesAll_wrapParts, this, first.keeps]

/-! ### Progress -/

/-- A condition may be made narrower. -/
theorem Consumes.mono {p q : List Token → Bool} {r : Reader} (hr : Consumes q r)
    (h : ∀ ts, p ts = true → q ts = true) : Consumes p r :=
  fun ts hp => hr ts (h ts hp)

theorem hasNext_of_inRule (ts : List Token) (h : inRule ts = true) : hasNext ts = true := by
  cases hn : next? ts <;> simp_all [inRule, hasNext, peek?]

theorem hasNext_of_isAt {kind : Kind} (ts : List Token) (h : isAt kind ts = true) :
    hasNext ts = true := by
  apply hasNext_of_inRule
  cases hp : peek? ts <;> simp_all [inRule, isAt]

/-- Comments do not change which token is next. -/
@[simp]
theorem next?_comments (ts : List Token) : next? (comments.read ts).2 = next? ts := by
  simp only [next?, comments]
  cases h : ts.dropWhile Token.isComment with
  | nil => rfl
  | cons t rest =>
    have ht : Token.isComment t = false := by
      have := List.head_dropWhile_not Token.isComment (l := ts) (by simp [h])
      simpa [h] using this
    simp [ht]

@[simp]
theorem peek?_comments (ts : List Token) : peek? (comments.read ts).2 = peek? ts := by
  simp [peek?]

@[simp]
theorem isAt_comments (kind : Kind) (ts : List Token) :
    isAt kind (comments.read ts).2 = isAt kind ts := by
  simp [isAt]

@[simp]
theorem hasNext_comments (ts : List Token) : hasNext (comments.read ts).2 = hasNext ts := by
  simp [hasNext]

/-- Where a token is left, a single token is taken. -/
theorem single_consumes (tree : Token → Tree) (h : ∀ t, (tree t).leaves = [t]) :
    Consumes hasNext (single tree h) := by
  intro ts hp
  have hl : (ts.dropWhile Token.isComment).length ≤ ts.length :=
    (List.dropWhile_sublist _).length_le
  cases hd : ts.dropWhile Token.isComment with
  | nil => simp [hasNext, next?, hd] at hp
  | cons t rest =>
    rw [hd, List.length_cons] at hl
    simp only [single, hd]
    omega

theorem token_consumes : Consumes hasNext token := single_consumes _ _

theorem Consumes.seq_left {p : List Token → Bool} {r : Reader} (hr : Consumes p r) (s : Reader) :
    Consumes p (seq r s) := by
  intro ts hp
  have := hr ts hp
  have := s.length_le (r.read ts).2
  simp only [seq]
  omega

theorem Consumes.choose {p q : List Token → Bool} {r s : Reader}
    (hr : Consumes (fun ts => p ts && q ts) r) (hs : Consumes (fun ts => p ts && !q ts) s) :
    Consumes p (choose q r s) := by
  intro ts hp
  cases hq : q ts with
  | true => simpa [Reader.choose, hq] using hr ts (by simp [hp, hq])
  | false => simpa [Reader.choose, hq] using hs ts (by simp [hp, hq])

theorem Consumes.comments_seq {p : List Token → Bool} {r : Reader} (hr : Consumes p r)
    (h : ∀ ts, p (comments.read ts).2 = p ts) : Consumes p (seq comments r) := by
  intro ts hp
  have := hr (comments.read ts).2 (by rw [h]; exact hp)
  have := comments.length_le ts
  simp only [seq]
  omega

theorem Consumes.node {p : List Token → Bool} {r : Reader} (hr : Consumes p r)
    (h : ∀ ts, p (comments.read ts).2 = p ts) (kind : Kind) : Consumes p (node kind r) :=
  Consumes.comments_seq (r := mapTrees _ _ r) hr h

end Reader

end Abnf
