/-
The grammar of rule lists, as readers.

A rule starts with a name in the first column and goes on up to the next token in the first column:

    rule list     = *(rule / junk)
    rule          = name ["=" / "=/"] elements
    elements      = alternation *(stray alternation)
    alternation   = concatenation *("/" concatenation)
    concatenation = *repetition
    repetition    = [repeat] [element]
    repeat        = number / [number] "*" [number]
    element       = name / "(" alternation [")"] / "[" alternation ["]"] / char / num / prose

Every list of tokens is read to its end (`ruleList`).  What fits nowhere is kept in `error` nodes: a
line that does not start with a name, a stray token in a rule, and an opener at the nesting limit.
An alternation or concatenation of one part is that part.  The parts may be any number; what becomes of
them where numbers have to fit into words is left to the `Recorder`.
-/
import Abnf.CoreRule
import Abnf.Syntax.Reader

namespace Abnf.Grammar

open Reader

/-- A token as the name of a rule. -/
def nameNode (t : Token) : Tree :=
  .branch (if CoreRule.isListed (String.ofList t.text) then .coreRulename else .rulename) [.leaf t]

theorem nameNode_eq (t : Token) :
    nameNode t = .branch (if CoreRule.isName (String.ofList t.text) then .coreRulename else .rulename) [.leaf t] := by
  rw [nameNode, CoreRule.isListed_eq_isName]

/-- Reads the next token as the name of a rule. -/
def name : Reader := single nameNode fun _ => rfl

/-! ### Elements -/

/-- Reads how often an element is repeated. -/
def repeatCount : Reader :=
  node .repeatCount (seq (ifAt .number) (choose (isAt .star) (seq token (ifAt .number)) nothing))

/-- Reads an opener and, if the nesting limit leaves a reader for it, what the opener encloses. -/
def bracketed (kind close : Kind) : Option (Thunk Reader) → Reader
  | none => node .error token
  | some body => node kind (seq token (seq (delayed body) (ifAt close)))

/-- Whether the next token of the current rule is a string, a number or a prose value. -/
def isAtValue (ts : List Token) : Bool :=
  isAt .charVal ts || isAt .numVal ts || isAt .proseVal ts

/-- Reads an element, if there is one. -/
def element (body : Option (Thunk Reader)) : Reader :=
  choose (isAt .identifier) name <|
  choose (isAt .leftParen) (bracketed .group .rightParen body) <|
  choose (isAt .leftBracket) (bracketed .option .rightBracket body) <|
  choose isAtValue token nothing

/-- Whether the next token of the current rule starts a repeat. -/
def isAtRepeat (ts : List Token) : Bool := isAt .number ts || isAt .star ts

/-- Reads an element with the repeat before it. -/
def repetition (body : Option (Thunk Reader)) : Reader :=
  choose isAtRepeat (node .repetition (seq repeatCount (element body))) (element body)

/-- Whether the next token of the current rule starts an element. -/
def isAtElement (ts : List Token) : Bool :=
  isAt .identifier ts || isAt .leftParen ts || isAt .leftBracket ts || isAtValue ts

/-- Whether the next token of the current rule starts a repetition. -/
def isAtRepetition (ts : List Token) : Bool := isAtRepeat ts || isAtElement ts

/-! ### Progress -/

theorem name_consumes : Consumes hasNext name := single_consumes _ _

theorem bracketed_consumes (kind close : Kind) (body : Option (Thunk Reader)) :
    Consumes hasNext (bracketed kind close body) := by
  cases body with
  | none => exact token_consumes.node hasNext_comments .error
  | some body => exact (token_consumes.seq_left _).node hasNext_comments kind

/-- An element takes a token where one starts. -/
theorem element_consumes (body : Option (Thunk Reader)) : Consumes isAtElement (element body) := by
  have hNext : ∀ ts, isAtElement ts = true → hasNext ts = true := by
    intro ts h
    simp only [isAtElement, isAtValue, Bool.or_eq_true] at h
    rcases h with ((h | h) | h) | (h | h) | h <;> exact hasNext_of_isAt ts h
  have hAnd : ∀ {p : List Token → Bool} {r : Reader}, Consumes hasNext r →
      (∀ ts, p ts = true → isAtElement ts = true) → Consumes p r :=
    fun hr h => hr.mono fun ts hp => hNext ts (h ts hp)
  refine Consumes.choose (hAnd name_consumes (by simp +contextual)) ?_
  refine Consumes.choose (hAnd (bracketed_consumes _ _ _) (by simp +contextual)) ?_
  refine Consumes.choose (hAnd (bracketed_consumes _ _ _) (by simp +contextual)) ?_
  refine Consumes.choose (hAnd token_consumes (by simp +contextual)) ?_
  intro ts h
  simp [isAtElement] at h
  grind

/-- A repeat takes a token where one starts. -/
theorem repeatCount_consumes : Consumes isAtRepeat repeatCount := by
  refine Consumes.node ?_ (by simp [isAtRepeat]) .repeatCount
  intro ts hp
  by_cases h1 : isAt .number ts = true
  · have ht : Consumes (isAt .number) (ifAt .number) := by
      refine Consumes.choose (token_consumes.mono fun ts h => ?_) (fun ts h => ?_)
      · exact hasNext_of_isAt ts (by simpa using h)
      · simp at h
    exact ht.seq_left _ ts h1
  · have h2 : isAt .star ts = true := by simpa [isAtRepeat, h1] using hp
    have h3 : (ifAt .number).read ts = ([], ts) := by simp [ifAt, choose, h1, nothing]
    have ht := token_consumes.seq_left (ifAt .number) ts (hasNext_of_isAt ts h2)
    simpa [seq, choose, h2, h3] using ht

/-- A repetition takes a token where one starts. -/
theorem repetition_consumes (body : Option (Thunk Reader)) :
    Consumes isAtRepetition (repetition body) := by
  refine Consumes.choose ?_ ?_
  · refine Consumes.mono (q := isAtRepeat) ?_ (by simp)
    exact (repeatCount_consumes.seq_left _).node (by simp [isAtRepeat]) .repetition
  · refine (element_consumes body).mono fun ts h => ?_
    simp [isAtRepetition] at h
    grind

/-! ### Alternations -/

/-- Reads repetitions; two or more are wrapped in a node. -/
def concatenation (body : Option (Thunk Reader)) : Reader :=
  seq comments (wrapped .concatenation isAtRepetition (repetition body) (repetition_consumes body))

/-- A slash is taken with the concatenation after it. -/
theorem slash_consumes (r : Reader) : Consumes (isAt .slash) (seq token r) :=
  (token_consumes.mono hasNext_of_isAt).seq_left r

/-- Reads concatenations with slashes between them; two or more are wrapped in a node. -/
def alternationOver (body : Option (Thunk Reader)) : Reader :=
  seq comments
    (wrappedAfter .alternation (concatenation body) (isAt .slash) (seq token (concatenation body))
      (slash_consumes _))

/-- Reads an alternation in which groups and options are nested up to a limit.  The reader for a
deeper level is made when an opener asks for it, so that a large limit costs nothing. -/
def alternation : Nat → Reader
  | 0 => alternationOver none
  | limit + 1 => alternationOver (some (Thunk.mk fun _ => alternation limit))

/-! ### Rules -/

/-- A token that starts no element is kept as an error. -/
theorem stray_consumes (r : Reader) : Consumes inRule (seq (node .error token) r) :=
  ((token_consumes.node hasNext_comments .error).mono hasNext_of_inRule).seq_left r

/-- Reads the alternations of a rule and the stray tokens between them. -/
def elements (limit : Nat) : Reader :=
  seq (alternation limit)
    (many inRule (seq (node .error token) (alternation limit)) (stray_consumes _))

/-- Whether the next token of the current rule says that the rule is defined. -/
def isAtDefinedAs (ts : List Token) : Bool := isAt .equals ts || isAt .incrementalEquals ts

/-- Reads the name of a rule, what defines it and the comments up to its elements. -/
def ruleHead : Reader :=
  seq name (seq (choose isAtDefinedAs (node .definedAs token) nothing) comments)

/-- Reads a rule.  Elements without a tree stand at the end of what is before them. -/
def rule (limit : Nat) : Reader where
  read ts :=
    let head := ruleHead.read ts
    let body := (elements limit).read head.2
    let tree := Tree.node .elements (Tree.spanOf body.1 (Tree.spanOf head.1 0).stop) body.1
    ([.branch .rule (head.1 ++ [tree])], body.2)
  keeps ts := by simp [(elements limit).keeps, ruleHead.keeps]

/-- Whether the next token is a name, wherever it stands. -/
def isNextName (ts : List Token) : Bool := (next? ts).any (·.kind == .identifier)

/-- Reads a token that is not part of a rule. -/
def junkItem : Reader := choose isNextName name token

theorem junkItem_consumes : Consumes hasNext junkItem := by
  refine Consumes.choose ?_ ?_
  · exact name_consumes.mono (by simp +contextual)
  · exact token_consumes.mono (by simp +contextual)

/-- Reads a token and all up to the next token that starts a line. -/
def junk : Reader :=
  node .error (seq junkItem (many inRule junkItem (junkItem_consumes.mono hasNext_of_inRule)))

/-- Whether the next token is a name in the first column. -/
def isAtRule (ts : List Token) : Bool :=
  (next? ts).any fun t => t.kind == .identifier && t.atLineStart

/-- Reads a rule or a line that is none, after the comments before it. -/
def entry (limit : Nat) : Reader := seq comments (choose isAtRule (rule limit) junk)

theorem entry_consumes (limit : Nat) : Consumes hasNext (entry limit) := by
  have hrule : Consumes hasNext (rule limit) := by
    intro ts hp
    have := (name_consumes.seq_left
      (seq (choose isAtDefinedAs (node .definedAs token) nothing) comments)) ts hp
    have := (elements limit).length_le (ruleHead.read ts).2
    simp only [rule]
    exact Nat.lt_of_le_of_lt this ‹_›
  have hjunk : Consumes hasNext junk := (junkItem_consumes.seq_left _).node hasNext_comments .error
  have hchoose : Consumes hasNext (choose isAtRule (rule limit) junk) :=
    Consumes.choose (hrule.mono (by simp +contextual)) (hjunk.mono (by simp +contextual))
  exact hchoose.comments_seq hasNext_comments

/-- Reads a whole list of tokens. -/
def ruleList (limit : Nat) : Reader :=
  seq (many hasNext (entry limit) (entry_consumes limit)) comments

end Abnf.Grammar
