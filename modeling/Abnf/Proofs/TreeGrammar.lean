/-
The grammar of trees.

The children of a node other than comments are what the kind of the node asks for.  `Content.ofKind`
says for each kind what that is, as a regular expression over the kinds of the children, and
`Site.Fits` adds what cannot be told from these kinds alone: which names are those of core rules, and
which errors may stand where.

`Grammar.Forms` says that trees side by side match an expression and that all sites in them fit,
wherever the trees may stand.  Trees one after the other form a product (`Forms.append`), parts of a
loop form a star (`Forms.flatten`), and a node forms its kind if its children form its content
(`Forms.wrap`, `Forms.bracket`).  Whether a node is made of some parts is decided after they are read,
so that what is said of the parts must hold at every depth at which they may come to stand.
-/
import Mathlib.Computability.RegularExpressions
import Abnf.Proofs.ErrorCheck
import Abnf.Proofs.Occurrence
import Abnf.Proofs.Sites

namespace Abnf

/-! ### What the nodes of a tree consist of -/

namespace Content

open RegularExpression (char)

/-- One node of one of some kinds. -/
def oneOf (kinds : List Kind) : RegularExpression Kind := (kinds.map char).sum

/-- What an expression matches, or nothing. -/
def maybe (e : RegularExpression Kind) : RegularExpression Kind := 1 + e

/-- What an expression matches, as often as one likes. -/
def many (e : RegularExpression Kind) : RegularExpression Kind := e.star

/-- The names of rules. -/
def names : List Kind := [.rulename, .coreRulename]

/-- What may be repeated.  An error is an opener at the nesting limit. -/
def elements : List Kind := names ++ [.group, .option, .charVal, .numVal, .proseVal, .error]

/-- What a concatenation is made of. -/
def parts : List Kind := .repetition :: elements

/-- What slashes stand between. -/
def items : List Kind := .concatenation :: parts

/-- What brackets enclose, and what the elements of a rule are. -/
def bodies : List Kind := .alternation :: items

/-- The tokens that fit nowhere inside of a rule. -/
def strays : List Kind := [.equals, .incrementalEquals, .rightParen, .rightBracket, .unknown]

/-- All tokens but comments and those of names. -/
def tokens : List Kind :=
  strays ++ [.charVal, .numVal, .proseVal, .number, .slash, .leftParen, .leftBracket, .star]

/-- What a line outside of rules is made of. -/
def pieces : List Kind := names ++ tokens

/-- The children of a node of a kind, comments left out.  Tokens have no children, and the last four
kinds stand in no tree. -/
def ofKind : Kind → RegularExpression Kind
  | .sourceFile => many (oneOf [.rule, .error])
  | .rule => oneOf names * (maybe (char .definedAs) * char .elements)
  | .rulename | .coreRulename => char .identifier
  | .definedAs => oneOf [.equals, .incrementalEquals]
  -- of two neighbours one is an error
  | .elements => maybe (oneOf bodies) * many (char .error * maybe (oneOf bodies))
  | .alternation =>
    maybe (oneOf items) *
      (char .slash * maybe (oneOf items) * many (char .slash * maybe (oneOf items)))
  | .concatenation => oneOf parts * (oneOf parts * many (oneOf parts))
  | .repetition => char .repeatCount * maybe (oneOf elements)
  | .repeatCount => char .number + maybe (char .number) * (char .star * maybe (char .number))
  | .group => char .leftParen * (maybe (oneOf bodies) * maybe (char .rightParen))
  | .option => char .leftBracket * (maybe (oneOf bodies) * maybe (char .rightBracket))
  | .error => oneOf pieces * many (oneOf pieces)
  | .identifier | .charVal | .numVal | .proseVal | .comment | .number | .equals
  | .incrementalEquals | .slash | .leftParen | .rightParen | .leftBracket | .rightBracket | .star
  | .unknown => 1
  | .whitespace | .newline | .endOfText | .tombstone => 0

end Content

/-- Whether nodes of this kind are nested up to the limit. -/
def Kind.isBracketed : Kind → Bool
  | .group | .option => true
  | _ => false

/-- The kinds of some trees, comments left out. -/
def Tree.kindsOf (ts : List Tree) : List Kind := (ts.map Tree.kind).filter (· != .comment)

namespace Site

/-- The kind of the parent. -/
def parentKind? (s : Site) : Option Kind := s.ancestors.head?.map (·.2.kind)

/-- How many groups and options are around a site. -/
def levels (s : Site) : Nat := s.ancestors.countP (·.2.kind.isBracketed)

/-- Whether a site is one that the grammar of trees has. -/
structure Fits (limit : Nat) (s : Site) : Prop where
  /-- The children are those that the kind of the node asks for. -/
  content : Tree.kindsOf s.node.children ∈ (Content.ofKind s.node.kind).matches'
  /-- The names of core rules are told from other names. -/
  core : s.node.kind.isName = true →
    (s.node.kind = .coreRulename ↔ CoreRule.isName s.name = true)
  /-- An error below the root does not start with a name in the first column. -/
  line : s.node.kind = .error → s.parentKind? = some .sourceFile →
    ∃ first rest, Token.withoutComments s.node.leaves = first :: rest ∧ first.isHead = false
  /-- An error elsewhere is a single token: one that fits nowhere, between the elements of a rule, or
  an opener at the nesting limit. -/
  token : s.node.kind = .error → s.parentKind? ≠ some .sourceFile →
    ∃ t, s.node.children = [.leaf t] ∧
      (s.parentKind? = some .elements ∧ t.kind ∈ Content.strays ∨
        t.kind.isOpener = true ∧ s.levels = limit)

end Site

/-! ### Regular expressions -/

namespace Content

open RegularExpression (char)

variable {e : RegularExpression Kind} {w : List Kind}

theorem mem_oneOf {kinds : List Kind} : w ∈ (oneOf kinds).matches' ↔ ∃ k ∈ kinds, w = [k] := by
  induction kinds with
  | nil =>
    constructor
    · intro h
      exact absurd h (Language.notMem_zero w)
    · rintro ⟨k, hk, -⟩
      exact absurd hk List.not_mem_nil
  | cons k kinds ih =>
    show w ∈ (char k).matches' + (oneOf kinds).matches' ↔ _
    rw [Language.mem_add, ih]
    constructor
    · rintro (h | ⟨l, hl, h⟩)
      · exact ⟨k, List.mem_cons_self, h⟩
      · exact ⟨l, List.mem_cons_of_mem _ hl, h⟩
    · rintro ⟨l, hl, h⟩
      rcases List.mem_cons.mp hl with rfl | hl
      · exact Or.inl h
      · exact Or.inr ⟨l, hl, h⟩

theorem mem_maybe : w ∈ (maybe e).matches' ↔ w = [] ∨ w ∈ e.matches' := Iff.rfl

theorem mem_char {k : Kind} : w ∈ (char k).matches' ↔ w = [k] := Iff.rfl

/-- Pieces that an expression matches, one after the other. -/
theorem flatten_mem_many {ws : List (List Kind)} (h : ∀ w ∈ ws, w ∈ e.matches') :
    ws.flatten ∈ (many e).matches' :=
  Language.join_mem_kstar h

theorem append_mem_mul {e e' : RegularExpression Kind} {w w' : List Kind} (h : w ∈ e.matches')
    (h' : w' ∈ e'.matches') : w ++ w' ∈ (e * e').matches' :=
  Language.append_mem_mul h h'

end Content

namespace Tree

@[simp]
theorem kindsOf_append (ts us : List Tree) : kindsOf (ts ++ us) = kindsOf ts ++ kindsOf us := by
  rw [kindsOf, List.map_append, List.filter_append]
  rfl

theorem kindsOf_singleton {x : Tree} (h : x.kind ≠ .comment) : kindsOf [x] = [x.kind] := by
  simp [kindsOf, h]

theorem kindsOf_flatten (parts : List (List Tree)) :
    kindsOf parts.flatten = (parts.map kindsOf).flatten := by
  induction parts with
  | nil => rfl
  | cons part parts ih => rw [List.flatten_cons, kindsOf_append, ih, List.map_cons, List.flatten_cons]

theorem kindsOf_comments (ts : List Token) : kindsOf (Reader.comments.read ts).1 = [] := by
  rw [kindsOf, List.filter_eq_nil_iff]
  intro k hk
  obtain ⟨x, hx, rfl⟩ := List.mem_map.mp hk
  obtain ⟨t, rfl, ht⟩ := Reader.mem_comments hx
  simp [Tree.kind, Token.kind_of_isComment ht]

end Tree

/-! ### Sites that fit -/

namespace Site

variable {limit id : Nat} {ancestors : List (Nat × Tree)}

/-- For most kinds the children are all that matters. -/
theorem fits_of_content {s : Site} (hname : s.node.kind.isName = false) (herror : s.node.kind ≠ .error)
    (h : Tree.kindsOf s.node.children ∈ (Content.ofKind s.node.kind).matches') : s.Fits limit where
  content := h
  core := fun h => absurd h (by rw [hname]; decide)
  line := fun h => absurd h herror
  token := fun h => absurd h herror

/-- A token fits wherever it stands. -/
theorem fits_leaf {t : Token} (h : Grammar.IsLeaf t) : Fits limit ⟨id, .leaf t, ancestors⟩ := by
  have hkind : t.kind.isName = false ∧ t.kind ≠ .error ∧ Content.ofKind t.kind = 1 := by
    obtain ⟨hlex, hsig⟩ := h
    rw [Token.isSignificant] at hsig
    revert hlex hsig
    cases t.kind <;> simp [Kind.isLexical, Kind.isName, Content.ofKind]
  refine fits_of_content hkind.1 hkind.2.1 ?_
  show _ ∈ (Content.ofKind t.kind).matches'
  rw [hkind.2.2]
  exact Language.nil_mem_one

theorem fits_nameNode {t : Token} (h : t.kind = .identifier) :
    Fits limit ⟨id, Grammar.nameNode t, ancestors⟩ := by
  have hchildren : Tree.kindsOf (Grammar.nameNode t).children = [.identifier] := by
    show Tree.kindsOf [.leaf t] = _
    rw [Tree.kindsOf_singleton (by rw [Tree.kind, h]; decide), Tree.kind, h]
  have hname : (⟨id, Grammar.nameNode t, ancestors⟩ : Site).name = String.ofList t.text :=
    spelling_nameNode t
  have hkind : (Grammar.nameNode t).kind =
      if CoreRule.isName (String.ofList t.text) then .coreRulename else .rulename := by
    rw [Grammar.nameNode_eq]
    rfl
  have herror : (Grammar.nameNode t).kind ≠ .error := by
    rw [hkind]
    split <;> decide
  constructor
  · show Tree.kindsOf (Grammar.nameNode t).children ∈
      (Content.ofKind (Grammar.nameNode t).kind).matches'
    rw [hchildren, hkind]
    split <;> exact Content.mem_char.mpr rfl
  · intro _
    rw [hname, hkind]
    split <;> simp_all
  · intro h
    exact absurd h herror
  · intro h
    exact absurd h herror

end Site

namespace Tree

/-- Whether all sites of a tree fit, if the tree stands below some ancestors. -/
def FitsBelow (limit : Nat) (ancestors : List (Nat × Tree)) (x : Tree) : Prop :=
  ∀ id, ∀ s ∈ Site.preorder id ancestors x, s.Fits limit

variable {limit : Nat} {ancestors : List (Nat × Tree)}

theorem fitsBelow_leaf {t : Token} (h : Grammar.IsLeaf t) : FitsBelow limit ancestors (leaf t) := by
  intro id s hs
  rw [List.mem_singleton.mp hs]
  exact Site.fits_leaf h

theorem fitsBelow_node {kind : Kind} {span : Span} {ts : List Tree}
    (h : ∀ id, Site.Fits limit ⟨id, node kind span ts, ancestors⟩)
    (hts : ∀ id, ∀ t ∈ ts, FitsBelow limit ((id, node kind span ts) :: ancestors) t) :
    FitsBelow limit ancestors (node kind span ts) := by
  intro id s hs
  rcases List.mem_cons.mp hs with rfl | hs
  · exact h id
  · obtain ⟨t, ht, id', hs⟩ := Site.mem_preorderAll hs
    exact hts id t ht id' s hs

theorem fitsBelow_nameNode {t : Token} (h : t.kind = .identifier) :
    FitsBelow limit ancestors (Grammar.nameNode t) := by
  have hleaf : Grammar.IsLeaf t := ⟨by rw [h]; rfl, by rw [Token.isSignificant, h]; rfl⟩
  refine fitsBelow_node (fun id => Site.fits_nameNode h) fun id x hx => ?_
  rw [List.mem_singleton.mp hx]
  exact fitsBelow_leaf hleaf

end Tree

namespace Grammar

open Reader Content
open RegularExpression (char)

/-! ### Trees side by side -/

/-- Ancestors of a tree inside of a rule, where `n` levels of brackets are left. -/
structure Inside (limit n : Nat) (ancestors : List (Nat × Tree)) : Prop where
  levels : ancestors.countP (·.2.kind.isBracketed) + n = limit
  parent : ancestors.head?.map (·.2.kind) ≠ some .sourceFile

theorem Inside.cons {limit n id : Nat} {ancestors : List (Nat × Tree)} (h : Inside limit n ancestors)
    {x : Tree} (hkind : x.kind.isBracketed = false) (hroot : x.kind ≠ .sourceFile) :
    Inside limit n ((id, x) :: ancestors) where
  levels := by
    rw [List.countP_cons_of_neg (by simp [hkind])]
    exact h.levels
  parent := by simpa using hroot

theorem Inside.cons_bracketed {limit n id : Nat} {ancestors : List (Nat × Tree)}
    (h : Inside limit (n + 1) ancestors) {x : Tree} (hkind : x.kind.isBracketed = true) :
    Inside limit n ((id, x) :: ancestors) where
  levels := by
    have hlevels := h.levels
    rw [List.countP_cons_of_pos (by exact hkind)]
    omega
  parent := by
    intro hroot
    rw [List.head?_cons, Option.map_some, Option.some.injEq] at hroot
    rw [hroot] at hkind
    exact absurd hkind (by decide)

/-- Ancestors of a tree that stands between the elements of a rule. -/
def BelowElements (limit : Nat) (ancestors : List (Nat × Tree)) : Prop :=
  Inside limit limit ancestors ∧ ancestors.head?.map (·.2.kind) = some .elements

/-- Ancestors without groups and options. -/
def Outermost (ancestors : List (Nat × Tree)) : Prop :=
  ancestors.countP (·.2.kind.isBracketed) = 0

/-- Ancestors of a tree below the root. -/
def BelowRoot (ancestors : List (Nat × Tree)) : Prop :=
  Outermost ancestors ∧ ancestors.head?.map (·.2.kind) = some .sourceFile

theorem Outermost.cons {id : Nat} {ancestors : List (Nat × Tree)} (h : Outermost ancestors) {x : Tree}
    (hkind : x.kind.isBracketed = false) : Outermost ((id, x) :: ancestors) := by
  rw [Outermost, List.countP_cons_of_neg (by simp [hkind])]
  exact h

/-- Trees whose kinds match an expression, and whose sites fit wherever the trees may stand. -/
structure Forms (limit : Nat) (place : List (Nat × Tree) → Prop) (e : RegularExpression Kind)
    (trees : List Tree) : Prop where
  kinds : Tree.kindsOf trees ∈ e.matches'
  fits : ∀ x ∈ trees, ∀ ancestors, place ancestors → x.FitsBelow limit ancestors

namespace Forms

variable {limit n : Nat} {place place' : List (Nat × Tree) → Prop} {e e' : RegularExpression Kind}
  {trees trees' : List Tree}

theorem mono (h : Forms limit place e trees) (he : ∀ w, w ∈ e.matches' → w ∈ e'.matches') :
    Forms limit place e' trees :=
  ⟨he _ h.kinds, h.fits⟩

theorem at_place (h : Forms limit place e trees) (hplace : ∀ ancestors, place' ancestors → place ancestors) :
    Forms limit place' e trees :=
  ⟨h.kinds, fun x hx ancestors hp => h.fits x hx ancestors (hplace ancestors hp)⟩

theorem nil (h : [] ∈ e.matches') : Forms limit place e [] :=
  ⟨h, fun _ hx => absurd hx List.not_mem_nil⟩

theorem append (h : Forms limit place e trees) (h' : Forms limit place e' trees') :
    Forms limit place (e * e') (trees ++ trees') := by
  constructor
  · rw [Tree.kindsOf_append]
    exact append_mem_mul h.kinds h'.kinds
  · intro x hx
    rcases List.mem_append.mp hx with hx | hx
    · exact h.fits x hx
    · exact h'.fits x hx

theorem comments (ts : List Token) : Forms limit place 1 (Reader.comments.read ts).1 := by
  constructor
  · rw [Tree.kindsOf_comments]
    exact Language.nil_mem_one
  · intro x hx ancestors _
    obtain ⟨t, rfl, ht⟩ := mem_comments hx
    have hkind := Token.kind_of_isComment ht
    exact Tree.fitsBelow_leaf ⟨by rw [hkind]; rfl, by rw [Token.isSignificant, hkind]; rfl⟩

/-- Comments count for nothing. -/
theorem afterComments (h : Forms limit place e trees) (ts : List Token) :
    Forms limit place e ((Reader.comments.read ts).1 ++ trees) := by
  refine ((comments ts).append h).mono fun w hw => ?_
  obtain ⟨u, hu, v, hv, rfl⟩ := Language.mem_mul.mp hw
  rw [(Language.mem_one u).mp hu]
  exact hv

theorem thenComments (h : Forms limit place e trees) (ts : List Token) :
    Forms limit place e (trees ++ (Reader.comments.read ts).1) := by
  refine (h.append (comments ts)).mono fun w hw => ?_
  obtain ⟨u, hu, v, hv, rfl⟩ := Language.mem_mul.mp hw
  rw [(Language.mem_one v).mp hv, List.append_nil]
  exact hu

/-- Parts that each match an expression, one after the other. -/
theorem flatten {parts : List (List Tree)} (h : ∀ part ∈ parts, Forms limit place e part) :
    Forms limit place (many e) parts.flatten := by
  constructor
  · rw [Tree.kindsOf_flatten]
    refine flatten_mem_many fun w hw => ?_
    obtain ⟨part, hpart, rfl⟩ := List.mem_map.mp hw
    exact (h part hpart).kinds
  · intro x hx
    obtain ⟨part, hpart, hx⟩ := List.mem_flatten.mp hx
    exact (h part hpart).fits x hx

/-- One tree of a kind. -/
theorem single {x : Tree} {kind : Kind} (hkind : x.kind = kind) (hc : kind ≠ .comment)
    (h : ∀ ancestors, place ancestors → x.FitsBelow limit ancestors) :
    Forms limit place (char kind) [x] := by
  constructor
  · rw [Tree.kindsOf_singleton (by rw [hkind]; exact hc), hkind]
    exact mem_char.mpr rfl
  · intro y hy
    rw [List.mem_singleton.mp hy]
    exact h

/-- A kind is one of several. -/
theorem oneOf {kind : Kind} (h : Forms limit place (char kind) trees) {kinds : List Kind}
    (hkind : kind ∈ kinds) : Forms limit place (Content.oneOf kinds) trees :=
  h.mono fun _ hw => mem_oneOf.mpr ⟨kind, hkind, mem_char.mp hw⟩

theorem widen {kinds kinds' : List Kind} (h : Forms limit place (Content.oneOf kinds) trees)
    (hkinds : ∀ k ∈ kinds, k ∈ kinds') : Forms limit place (Content.oneOf kinds') trees := by
  refine h.mono fun w hw => ?_
  obtain ⟨k, hk, hw⟩ := mem_oneOf.mp hw
  exact mem_oneOf.mpr ⟨k, hkinds k hk, hw⟩

theorem maybe (h : Forms limit place e trees) : Forms limit place (Content.maybe e) trees :=
  h.mono fun _ hw => mem_maybe.mpr (Or.inr hw)

/-- A name is one tree. -/
theorem name {t : Token} (h : t.kind = .identifier) :
    Forms limit place (Content.oneOf names) [nameNode t] := by
  have hkind : (nameNode t).kind = .rulename ∨ (nameNode t).kind = .coreRulename := by
    unfold nameNode
    split
    · exact Or.inr rfl
    · exact Or.inl rfl
  rcases hkind with hkind | hkind
  · exact oneOf (single hkind (by decide) fun _ _ => Tree.fitsBelow_nameNode h) (by decide)
  · exact oneOf (single hkind (by decide) fun _ _ => Tree.fitsBelow_nameNode h) (by decide)

/-- A wrapper is one tree, if it has the children that its kind asks for. -/
theorem wrap {kind : Kind} (hk : isWrapper kind = true)
    (h : Forms limit (Inside limit n) (ofKind kind) trees) :
    Forms limit (Inside limit n) (char kind) [.branch kind trees] := by
  have hkind : kind ≠ .comment ∧ kind.isName = false ∧ kind ≠ .error ∧ kind.isBracketed = false ∧
      kind ≠ .sourceFile := by
    revert hk
    cases kind <;> simp [isWrapper, Kind.isName, Kind.isBracketed]
  refine single rfl hkind.1 fun ancestors hin => ?_
  refine Tree.fitsBelow_node (fun id => ?_) fun id x hx => ?_
  · exact Site.fits_of_content hkind.2.1 hkind.2.2.1 h.kinds
  · exact h.fits x hx _ (hin.cons hkind.2.2.2.1 hkind.2.2.2.2)

/-- A group or an option has one more level than what it encloses. -/
theorem bracket {kind opener close : Kind} (hb : Brackets kind opener close)
    (h : Forms limit (Inside limit n) (ofKind kind) trees) :
    Forms limit (Inside limit (n + 1)) (char kind) [.branch kind trees] := by
  have hkind : kind ≠ .comment ∧ kind.isName = false ∧ kind ≠ .error ∧ kind.isBracketed = true := by
    cases hb <;> decide
  refine single rfl hkind.1 fun ancestors hin => ?_
  refine Tree.fitsBelow_node (fun id => ?_) fun id x hx => ?_
  · exact Site.fits_of_content hkind.2.1 hkind.2.2.1 h.kinds
  · exact h.fits x hx _ (hin.cons_bracketed hkind.2.2.2)

/-- Parts that may be wrapped: two or more are what the wrapper asks for, and one stands for itself. -/
theorem wrapParts {kind : Kind} {kinds : List Kind} (hk : isWrapper kind = true) (hmem : kind ∈ kinds)
    {parts : List (List Tree)}
    (hlong : ∀ first second more, parts = first :: second :: more →
      Forms limit (Inside limit n) (ofKind kind) (first ++ (second ++ more.flatten)))
    (hone : ∀ first, parts = [first] →
      Forms limit (Inside limit n) (Content.maybe (Content.oneOf kinds)) first) :
    Forms limit (Inside limit n) (Content.maybe (Content.oneOf kinds))
      (Reader.wrapParts kind parts) := by
  rcases parts with _ | ⟨first, _ | ⟨second, more⟩⟩
  · exact nil (mem_maybe.mpr (Or.inl rfl))
  · show Forms limit _ _ [first].flatten
    rw [List.flatten_singleton]
    exact hone first rfl
  · exact ((wrap hk (hlong first second more rfl)).oneOf hmem).maybe

end Forms

theorem isLeaf_of_mem_tokens {t : Token} (h : t.kind ∈ tokens) : IsLeaf t := by
  rw [IsLeaf, Token.isSignificant]
  revert h
  cases t.kind <;> decide

end Grammar

end Abnf
