/-
From trees back to rules.

`readRules?` reads a tree as a rule list.  Comments and punctuation are dropped, and a tree stands for
as little as it can: what is wrapped in no alternation, concatenation or repetition is one of a single
part (`View`).  Trees with errors stand for nothing.

`Shows` collects what is known of trees that a reader has made: what they stand for, and that they hold
no error.
-/
import Abnf.Proofs.ErrorCheck
import Abnf.Proofs.Layout

namespace Abnf.Abstract

open Token

/-! ### Names, numbers and values -/

def Name.ofText? (text : Text) : Option Name :=
  if h : (text.head?.any Char.isAlpha && text.all isNameChar) = true then some ⟨text, h⟩ else none

def Digits.ofText? (text : Text) : Option Digits :=
  if h : (!text.isEmpty && text.all Char.isDigit) = true then some ⟨text, h⟩ else none

def Enclosed.ofText? (close : Char) (text : Text) : Option (Enclosed close) :=
  if h : text.all (fun c => c != close && !Text.isRowBreak c) = true then some ⟨text, h⟩ else none

def Mark.ofLetter? (letter : Char) : Option Mark :=
  if h : (letter.toLower == 's' || letter.toLower == 'i') = true then some ⟨letter, h⟩ else none

def Numeric.ofText? (base : Char) (text : Text) : Option Numeric :=
  if h : ((base.toLower == 'b' || base.toLower == 'd' || base.toLower == 'x') &&
    text.head?.any Char.isAlphanum && text.all isNumValChar) = true then some ⟨base, text, h⟩ else none

/-- The value that a token is written as. -/
def Value.ofText? : Kind → Text → Option Value
  | .charVal, '"' :: body => (Enclosed.ofText? '"' body.dropLast).map (.string none)
  | .charVal, '%' :: letter :: '"' :: body =>
    (Mark.ofLetter? letter).bind fun mark =>
      (Enclosed.ofText? '"' body.dropLast).map (.string (some mark))
  | .numVal, '%' :: base :: text => (Numeric.ofText? base text).map .numeric
  | .proseVal, '<' :: body => (Enclosed.ofText? '>' body.dropLast).map .prose
  | _, _ => none

/-- The repeat that some words are. -/
def Repeat.ofWords? : List Word → Option Repeat
  | [⟨.number, count, _⟩] => (Digits.ofText? count).map .exactly
  | [⟨.star, _, _⟩] => some (.between none none)
  | [⟨.number, low, _⟩, ⟨.star, _, _⟩] =>
    (Digits.ofText? low).map fun low => .between (some low) none
  | [⟨.star, _, _⟩, ⟨.number, high, _⟩] =>
    (Digits.ofText? high).map fun high => .between none (some high)
  | [⟨.number, low, _⟩, ⟨.star, _, _⟩, ⟨.number, high, _⟩] =>
    (Digits.ofText? low).bind fun low =>
      (Digits.ofText? high).map fun high => .between (some low) (some high)
  | _ => none

theorem Name.ofText?_text (n : Name) : Name.ofText? n.text = some n := dif_pos n.valid

theorem Digits.ofText?_text (n : Digits) : Digits.ofText? n.text = some n := dif_pos n.valid

theorem Enclosed.ofText?_text {close : Char} (body : Enclosed close) :
    Enclosed.ofText? close body.text = some body := dif_pos body.valid

theorem Value.ofText?_text (v : Value) : Value.ofText? v.kind v.text = some v := by
  cases v with
  | string mark body =>
    cases mark with
    | none =>
      rw [kind, text, ofText?, List.dropLast_concat, Enclosed.ofText?_text]
      rfl
    | some mark =>
      have hmark : Mark.ofLetter? mark.letter = some mark := dif_pos mark.valid
      rw [kind, text, ofText?, hmark, List.dropLast_concat, Enclosed.ofText?_text]
      rfl
  | numeric n =>
    have hn : Numeric.ofText? n.base n.text = some n := dif_pos n.valid
    rw [kind, text, ofText?, hn]
    rfl
  | prose body =>
    rw [kind, text, ofText?, List.dropLast_concat, Enclosed.ofText?_text]
    rfl

theorem Repeat.ofWords?_words (r : Repeat) : Repeat.ofWords? r.words = some r := by
  cases r with
  | exactly count =>
    show (Digits.ofText? count.text).map _ = _
    rw [Digits.ofText?_text]
    rfl
  | between low high =>
    cases low with
    | none =>
      cases high with
      | none => rfl
      | some high =>
        show (Digits.ofText? high.text).map _ = _
        rw [Digits.ofText?_text]
        rfl
    | some low =>
      cases high with
      | none =>
        show (Digits.ofText? low.text).map _ = _
        rw [Digits.ofText?_text]
        rfl
      | some high =>
        show ((Digits.ofText? low.text).bind _) = _
        rw [Digits.ofText?_text, Option.bind_some, Digits.ofText?_text]
        rfl

/-! ### Views -/

/-- What a tree inside a rule stands for. -/
inductive View where
  | count (r : Repeat)
  | element (e : Element)
  | repetition (r : Repetition)
  | concatenation (c : Concatenation)
  | alternation (a : Alternation)

namespace View

/-- An element alone is repeated once. -/
def repetition? : View → Option Repetition
  | element e => some (.mk none e)
  | repetition r => some r
  | _ => none

/-- A repetition alone is a concatenation. -/
def concatenation? : View → Option Concatenation
  | concatenation c => some c
  | v => v.repetition?.map .one

/-- A concatenation alone is an alternation. -/
def alternation? : View → Option Alternation
  | alternation a => some a
  | v => v.concatenation?.map .one

end View

def Concatenation.repetitions : Concatenation → List Repetition
  | .one r => [r]
  | .cons r c => r :: c.repetitions

def Concatenation.ofList? : List Repetition → Option Concatenation
  | [] => none
  | [r] => some (.one r)
  | r :: rs => (ofList? rs).map (.cons r)

def Alternation.concatenations : Alternation → List Concatenation
  | .one c => [c]
  | .cons c a => c :: a.concatenations

def Alternation.ofList? : List Concatenation → Option Alternation
  | [] => none
  | [c] => some (.one c)
  | c :: cs => (ofList? cs).map (.cons c)

/-- What a node stands for, given its words and what its children stand for. -/
def View.ofNode? (kind : Kind) (words : List Word) (views : Option (List View)) : Option View :=
  match kind, words, views with
  | .rulename, [w], _ => (Name.ofText? w.text).map fun n => .element (.name n)
  | .coreRulename, [w], _ => (Name.ofText? w.text).map fun n => .element (.name n)
  | .repeatCount, ws, _ => (Repeat.ofWords? ws).map .count
  | .repetition, _, some [.count r, .element e] => some (.repetition (.mk (some r) e))
  | .concatenation, _, some vs =>
    ((vs.mapM View.repetition?).bind Concatenation.ofList?).map .concatenation
  | .alternation, _, some vs =>
    ((vs.mapM View.concatenation?).bind Alternation.ofList?).map .alternation
  | .group, _, some [v] => v.alternation?.map fun a => .element (.group a)
  | .option, _, some [v] => v.alternation?.map fun a => .element (.option a)
  | _, _, _ => none

/-- Whether trees of a kind are dropped: comments and punctuation. -/
def isDropped : Kind → Bool
  | .comment | .slash | .leftParen | .rightParen | .leftBracket | .rightBracket => true
  | _ => false

mutual

/-- What a tree stands for. -/
def view? : Tree → Option View
  | .leaf t => (Value.ofText? t.kind t.text).map fun v => .element (.value v)
  | .node kind _ children =>
    View.ofNode? kind (words (Tree.leavesAll children)) (viewAll? children)

/-- What some trees stand for, without comments and punctuation. -/
def viewAll? : List Tree → Option (List View)
  | [] => some []
  | t :: ts =>
    if isDropped t.kind then viewAll? ts
    else (view? t).bind fun v => (viewAll? ts).map (v :: ·)

end

/-! ### Rules -/

/-- The one alternation that some trees stand for. -/
def alternationOf? (ts : List Tree) : Option Alternation :=
  match viewAll? ts with
  | some [v] => v.alternation?
  | _ => none

/-- Whether a sign adds to an earlier definition. -/
def isIncremental? : List Word → Option Bool
  | [⟨.equals, _, _⟩] => some false
  | [⟨.incrementalEquals, _, _⟩] => some true
  | _ => none

/-- The rule that a tree stands for: a name, a sign and elements, with comments between them. -/
def Rule.ofTree? : Tree → Option Rule
  | .node .rule _ children =>
    match children.filter (·.kind != .comment) with
    | [name, .node .definedAs _ sign, .node .elements _ body] =>
      match view? name, isIncremental? (Token.words (Tree.leavesAll sign)), alternationOf? body with
      | some (.element (.name n)), some incremental, some a => some ⟨n, incremental, a⟩
      | _, _, _ => none
    | _ => none
  | _ => none

/-- The rule list that a tree stands for. -/
def readRules? (root : Tree) : Option (List Rule) :=
  (root.children.filter (·.kind != .comment)).mapM Rule.ofTree?

/-! ### What trees stand for -/

theorem Concatenation.ofList?_repetitions : ∀ c : Concatenation, ofList? c.repetitions = some c
  | .one _ => rfl
  | .cons r c => by
    have hrest := ofList?_repetitions c
    cases c with
    | one _ => rfl
    | cons r' c =>
      rw [repetitions, repetitions, ofList?, ← repetitions, hrest]
      · rfl
      · simp

theorem Alternation.ofList?_concatenations : ∀ a : Alternation, ofList? a.concatenations = some a
  | .one _ => rfl
  | .cons c a => by
    have hrest := ofList?_concatenations a
    cases a with
    | one _ => rfl
    | cons c' a =>
      rw [concatenations, concatenations, ofList?, ← concatenations, hrest]
      · rfl
      · simp

theorem View.concatenation?_of_repetition? {v : View} {r : Repetition} (h : v.repetition? = some r) :
    v.concatenation? = some (.one r) := by
  cases v <;> simp_all [View.repetition?, View.concatenation?]

theorem View.alternation?_of_concatenation? {v : View} {c : Concatenation}
    (h : v.concatenation? = some c) : v.alternation? = some (.one c) := by
  cases v <;> simp_all [View.repetition?, View.concatenation?, View.alternation?]

theorem viewAll?_append {ts us : List Tree} {vs ws : List View} (h : viewAll? ts = some vs)
    (h' : viewAll? us = some ws) : viewAll? (ts ++ us) = some (vs ++ ws) := by
  induction ts generalizing vs with
  | nil =>
    cases h
    exact h'
  | cons t ts ih =>
    rw [List.cons_append, viewAll?]
    rw [viewAll?] at h
    split at h
    · rw [if_pos ‹_›, ih h]
    · obtain ⟨v, hv, h⟩ := Option.bind_eq_some_iff.mp h
      obtain ⟨vs', hvs', rfl⟩ := Option.map_eq_some_iff.mp h
      rw [if_neg ‹_›, hv, Option.bind_some, ih hvs']
      rfl

theorem view?_nameNode {t : Token} {n : Name} (hkind : t.kind = .identifier)
    (htext : t.text = n.text) : view? (Grammar.nameNode t) = some (.element (.name n)) := by
  have hwords : words (Tree.leavesAll [.leaf t]) = [t.word] := by
    show words [t] = _
    rw [words, withoutComments_cons (by simp [isComment, hkind])]
    rfl
  have hname : Name.ofText? t.word.text = some n := by
    rw [show t.word.text = t.text from rfl, htext, Name.ofText?_text]
  unfold Grammar.nameNode
  split <;> rw [Tree.branch, view?, hwords, View.ofNode?, hname] <;> rfl

theorem Rule.ofTree?_node {r : Rule} {children sign body : List Tree} {name : Tree}
    {span span' span'' : Span}
    (hchildren : children.filter (·.kind != .comment) =
      [name, .node .definedAs span sign, .node .elements span' body])
    (hname : view? name = some (.element (.name r.name)))
    (hsign : isIncremental? (Token.words (Tree.leavesAll sign)) = some r.incremental)
    (hbody : alternationOf? body = some r.body) :
    Rule.ofTree? (.node .rule span'' children) = some r := by
  rw [Rule.ofTree?, hchildren]
  show (match view? name, isIncremental? (Token.words (Tree.leavesAll sign)), alternationOf? body with
    | some (.element (.name n)), some incremental, some a => some ⟨n, incremental, a⟩
    | _, _, _ => none) = some r
  rw [hname, hsign, hbody]

/-- Trees that stand for some views and hold no error. -/
structure Shows (trees : List Tree) (views : List View) : Prop where
  views : viewAll? trees = some views
  clean : Tree.anyError trees = false

namespace Shows

theorem nil : Shows [] [] := ⟨rfl, rfl⟩

theorem append {ts us : List Tree} {vs ws : List View} (h : Shows ts vs) (h' : Shows us ws) :
    Shows (ts ++ us) (vs ++ ws) :=
  ⟨viewAll?_append h.views h'.views, by rw [Tree.anyError_append, h.clean, h'.clean]; rfl⟩

theorem single {t : Tree} {v : View} (hkind : isDropped t.kind = false) (hview : view? t = some v)
    (hclean : t.hasError = false) : Shows [t] [v] := by
  refine ⟨?_, by rw [Tree.anyError_cons, hclean]; rfl⟩
  rw [viewAll?, if_neg (by rw [hkind]; exact Bool.false_ne_true), hview]
  rfl

theorem dropped {t : Token} (h : isDropped t.kind = true) : Shows [.leaf t] [] := by
  have hnot : t.kind ≠ .error ∧ t.kind ≠ .unknown := by
    constructor <;> intro hk <;> rw [hk] at h <;> exact absurd h (by decide)
  refine ⟨?_, by rw [Tree.anyError_cons, Tree.hasError_leaf hnot.1 hnot.2]; rfl⟩
  rw [viewAll?, if_pos (by exact h)]
  rfl

theorem comments (ts : List Token) : Shows (Reader.comments.read ts).1 [] := by
  refine ⟨?_, Reader.anyError_comments ts⟩
  have hdropped : ∀ trees : List Tree, (∀ x ∈ trees, isDropped x.kind = true) →
      viewAll? trees = some [] := by
    intro trees h
    induction trees with
    | nil => rfl
    | cons x trees ih =>
      rw [viewAll?, if_pos (h x List.mem_cons_self)]
      exact ih fun y hy => h y (List.mem_cons_of_mem _ hy)
  refine hdropped _ fun x hx => ?_
  obtain ⟨t, rfl, ht⟩ := Reader.mem_comments hx
  have hkind := kind_of_isComment ht
  show isDropped t.kind = true
  rw [hkind]
  rfl

theorem value {t : Token} {v : Value} (hkind : t.kind = v.kind) (htext : t.text = v.text) :
    Shows [.leaf t] [.element (.value v)] := by
  have hnot : isDropped t.kind = false ∧ t.kind ≠ .error ∧ t.kind ≠ .unknown := by
    rw [hkind]
    cases v <;> exact ⟨rfl, Kind.noConfusion, Kind.noConfusion⟩
  refine single hnot.1 ?_ (Tree.hasError_leaf hnot.2.1 hnot.2.2)
  rw [view?, hkind, htext, Value.ofText?_text]
  rfl

theorem name {t : Token} {n : Name} (hkind : t.kind = .identifier) (htext : t.text = n.text) :
    Shows [Grammar.nameNode t] [.element (.name n)] := by
  refine single ?_ (view?_nameNode hkind htext) (Tree.hasError_nameNode hkind)
  unfold Grammar.nameNode
  split <;> rfl

/-- A node that stands for something, over trees without errors. -/
theorem branch {kind : Kind} {trees : List Tree} {v : View} (hclean : Tree.anyError trees = false)
    (hview : View.ofNode? kind (words (Tree.leavesAll trees)) (viewAll? trees) = some v) :
    Shows [.branch kind trees] [v] := by
  have hkind : isDropped kind = false ∧ kind ≠ .error ∧ kind ≠ .unknown := by
    revert hview
    cases kind <;> simp [isDropped, View.ofNode?]
  exact single hkind.1 hview (by rw [Tree.hasError_branch hkind.2.1 hkind.2.2, hclean])

end Shows

end Abnf.Abstract
