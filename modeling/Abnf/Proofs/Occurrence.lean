/-
Names in trees and names in texts.

Every name of a grammar is in a name node of its tree, whatever surrounds it: a name in the first
column is the head of a rule, and every other name is a reference (`classified_root`).  So the index
of a document, which is found by a walk over the tree, is what a search through the tokens of the text
finds (`index_eq_scan`).

The walk decides by the parent of a name node.  What the grammar reads after the head of a rule is
therefore described by trees that hold references only (`Tree.Referring`), and the trees below the root
by `Tree.Entry`.
-/
import Abnf.Proofs.Findings
import Abnf.Proofs.Lossless
import Abnf.Proofs.Sites

namespace Abnf

namespace Token

/-- Whether a token is a name that does not start a line. -/
def isUse (t : Token) : Bool := t.kind == .identifier && !t.atLineStart

/-- The text of a token as a name. -/
def name (t : Token) : String := String.ofList t.text

end Token

namespace Tree

/-- Trees whose names are references: a name is the only child of a name node and does not start a
line, and there is no rule in the tree. -/
inductive Referring : Tree → Prop
  | leaf {t : Token} : t.kind ≠ .identifier → Referring (leaf t)
  | name {t : Token} : t.kind = .identifier → t.atLineStart = false →
      Referring (Grammar.nameNode t)
  | node {kind : Kind} {span : Span} {ts : List Tree} : kind.isName = false → kind ≠ .rule →
      (∀ t ∈ ts, Referring t) → Referring (node kind span ts)

/-- Trees that stand below the root: comments, errors, and rules, of which only the head is a name
that starts a line. -/
inductive Entry : Tree → Prop
  | other {t : Tree} : Referring t → Entry t
  | rule {head : Token} {span : Span} {ts : List Tree} : head.kind = .identifier →
      head.atLineStart = true → (∀ t ∈ ts, Referring t ∧ t.kind.isName = false) →
      Entry (node .rule span (Grammar.nameNode head :: ts))

theorem mem_leavesAll {ts : List Tree} {u : Token} :
    u ∈ leavesAll ts ↔ ∃ t ∈ ts, u ∈ t.leaves := by
  induction ts with
  | nil => simp
  | cons t ts ih => simp [ih]

theorem referring_comment {t : Token} (h : t.isComment = true) : Referring (leaf t) := by
  refine .leaf fun hk => ?_
  simp [Token.isComment, hk] at h

end Tree

namespace Grammar

open Reader

/-- Inside a rule there are references only. -/
theorem kept_referring (limit : Nat) : Kept limit fun _ _ trees _ => ∀ t ∈ trees, t.Referring where
  refl := by simp
  append := by
    intro n ts us vs trees trees' h h' t ht
    rcases List.mem_append.mp ht with ht | ht
    · exact h t ht
    · exact h' t ht
  skip := by
    intro n ts x hx
    obtain ⟨t, rfl, ht⟩ := mem_comments hx
    exact Tree.referring_comment ht
  name := by
    intro n t us hkind hline x hx
    rw [List.mem_singleton.mp hx]
    exact .name hkind hline
  plain := by
    intro n t us hkind hline x hx
    rw [List.mem_singleton.mp hx]
    refine .leaf fun hk => ?_
    simp [hk, isPlain] at hkind
  wrap := by
    intro n kind ts us trees hkind hne h x hx
    rw [List.mem_singleton.mp hx]
    refine .node ?_ ?_ h <;> cases kind <;> simp_all [isWrapper, Kind.isName]
  bracket := by
    intro n kind opener close t us trees vs hb hkind hline h hstop x hx
    rw [List.mem_singleton.mp hx]
    refine .node (by cases hb <;> rfl) (by cases hb <;> decide) fun y hy => ?_
    rcases List.mem_cons.mp hy with rfl | hy
    · refine .leaf ?_
      rw [hkind]
      cases hb <;> decide
    · rcases List.mem_append.mp hy with hy | hy
      · exact h y hy
      · obtain ⟨c, rfl, hc | ⟨hc, -⟩⟩ := mem_ifAt hy
        · exact Tree.referring_comment hc
        · refine .leaf ?_
          rw [hc]
          cases hb <;> decide
  atLimit := by
    intro kind opener close t us hb hkind hline x hx
    rw [List.mem_singleton.mp hx]
    refine .node rfl (by decide) fun y hy => ?_
    rw [List.mem_singleton.mp hy]
    refine .leaf ?_
    rw [hkind]
    cases hb <;> decide
  stray := by
    intro t us _ hkind _ _ _ _ x hx
    rw [List.mem_singleton.mp hx]
    refine .node rfl (by decide) fun y hy => ?_
    rw [List.mem_singleton.mp hy]
    exact .leaf hkind

theorem afterName_referring {ts : List Token} {x : Tree} (h : x ∈ (afterName.read ts).1) :
    x.Referring ∧ x.kind.isName = false := by
  rcases mem_afterName h with ⟨t, rfl, ht⟩ | ⟨t, rfl, hk, -⟩
  · have hkind := Token.kind_of_isComment ht
    exact ⟨Tree.referring_comment ht, by rw [Tree.kind, hkind]; rfl⟩
  · refine ⟨.node rfl (by decide) fun y hy => ?_, rfl⟩
    rw [List.mem_singleton.mp hy]
    refine .leaf fun hid => ?_
    rcases hk with hk | hk <;> simp [hk] at hid

theorem rule_entry (limit : Nat) {t : Token} (h : t.isHead = true) (us : List Token) {x : Tree}
    (hx : x ∈ ((rule limit).read (t :: us)).1) : x.Entry := by
  simp only [Token.isHead, Bool.and_eq_true, beq_iff_eq] at h
  have hcomment : t.isComment = false := by simp [Token.isComment, h.1]
  rw [rule_read limit hcomment, List.mem_singleton] at hx
  rw [hx]
  refine .rule h.1 h.2 fun y hy => ?_
  rcases List.mem_append.mp hy with hy | hy
  · exact afterName_referring hy
  · rw [List.mem_singleton.mp hy]
    exact ⟨.node rfl (by decide) ((kept_referring limit).elements _), rfl⟩

/-- Outside of rules there are references only. -/
theorem junk_referring {t : Token} (hc : t.isComment = false) (h : t.isHead = false)
    {us : List Token} {x : Tree} (hx : x ∈ (junk.read (t :: us)).1) : x.Referring := by
  obtain ⟨trees, rfl, -, htrees⟩ := mem_junk hc hx
  refine .node rfl (by decide) fun y hy => ?_
  rcases htrees y hy with ⟨c, rfl, hcomment⟩ | ⟨u, hline, rfl⟩
  · exact Tree.referring_comment hcomment
  · split
    · rename_i hkind
      refine .name hkind ?_
      rcases hline with rfl | hline
      · simpa [Token.isHead, hkind] using h
      · exact hline
    · exact .leaf ‹_›

/-- The trees below the root. -/
theorem ruleList_entry (limit : Nat) {ts : List Token} {x : Tree}
    (hx : x ∈ ((ruleList limit).read ts).1) : x.Entry := by
  rcases mem_ruleList hx with ⟨c, rfl, hc⟩ | ⟨t, us, hc, ⟨hhead, hx⟩ | ⟨hhead, hx⟩⟩
  · exact .other (Tree.referring_comment hc)
  · exact rule_entry limit hhead us hx
  · exact .other (junk_referring hc hhead hx)

end Grammar

namespace Site

/-- Whether the nearest of some ancestors is a rule. -/
def isUnderRule (ancestors : List (Nat × Tree)) : Bool :=
  ancestors.head?.any (·.2.kind == .rule)

theorem parent?_any (id : Nat) (t : Tree) (ancestors : List (Nat × Tree)) :
    (Site.mk id t ancestors).parent?.any (·.node.kind == .rule) = isUnderRule ancestors := by
  cases ancestors <;> rfl

/-- The heads and references among some sites are the name nodes of the names among some tokens that
start a line and that do not. -/
def Classified (sites : List Site) (tokens : List Token) : Prop :=
  (sites.filter isHead).map node = (tokens.filter Token.isHead).map Grammar.nameNode ∧
    (sites.filter isReference).map node = (tokens.filter Token.isUse).map Grammar.nameNode

namespace Classified

theorem nil : Classified [] [] := ⟨rfl, rfl⟩

theorem append {ss ss' : List Site} {ts ts' : List Token} (h : Classified ss ts)
    (h' : Classified ss' ts') : Classified (ss ++ ss') (ts ++ ts') := by
  constructor
  · rw [List.filter_append, List.map_append, h.1, h'.1, List.filter_append, List.map_append]
  · rw [List.filter_append, List.map_append, h.2, h'.2, List.filter_append, List.map_append]

/-- A site that is no name counts for nothing. -/
theorem cons_other {s : Site} (hs : s.node.kind.isName = false) {ss : List Site} {ts : List Token}
    (h : Classified ss ts) : Classified (s :: ss) ts := by
  constructor
  · rw [List.filter_cons_of_neg (by simp [isHead, hs])]
    exact h.1
  · rw [List.filter_cons_of_neg (by simp [isReference, hs])]
    exact h.2

theorem preorderAll {ancestors : List (Nat × Tree)} {ts : List Tree}
    (h : ∀ t ∈ ts, ∀ id, Classified (preorder id ancestors t) t.leaves) (id : Nat) :
    Classified (Site.preorderAll id ancestors ts) (Tree.leavesAll ts) := by
  induction ts generalizing id with
  | nil => exact nil
  | cons t ts ih =>
    rw [Site.preorderAll, Tree.leavesAll_cons]
    refine append (h t List.mem_cons_self id) (ih (fun u hu => h u ?_) _)
    exact List.mem_cons_of_mem _ hu

end Classified

theorem isName_nameNode (t : Token) : (Grammar.nameNode t).kind.isName = true := by
  unfold Grammar.nameNode
  split <;> rfl

/-- The two sites of a name. -/
theorem preorder_nameNode (id : Nat) (ancestors : List (Nat × Tree)) (t : Token) :
    preorder id ancestors (Grammar.nameNode t) =
      [⟨id, Grammar.nameNode t, ancestors⟩,
        ⟨id + 1, .leaf t, (id, Grammar.nameNode t) :: ancestors⟩] := rfl

/-- A name node is a head below a rule and a reference elsewhere. -/
theorem classified_nameNode {t : Token} (hkind : t.kind = .identifier)
    {ancestors : List (Nat × Tree)} (h : isUnderRule ancestors = t.atLineStart) (id : Nat) :
    Classified (preorder id ancestors (Grammar.nameNode t)) (Grammar.nameNode t).leaves := by
  have hname := isName_nameNode t
  have hleaf : (Tree.leaf t).kind.isName = false := by rw [Tree.kind, hkind]; rfl
  rw [preorder_nameNode, show (Grammar.nameNode t).leaves = [t] from rfl]
  cases hl : t.atLineStart with
  | true =>
    constructor
    · simp [isHead, parent?_any, hname, hleaf, h, hl, Token.isHead, hkind]
    · simp [isReference, parent?_any, hname, hleaf, h, hl, Token.isUse]
  | false =>
    constructor
    · simp [isHead, parent?_any, hname, hleaf, h, hl, Token.isHead]
    · simp [isReference, parent?_any, hname, hleaf, h, hl, Token.isUse, hkind]

/-- In a tree that holds references only, every name is a reference. -/
theorem classified_of_referring {t : Tree} (h : t.Referring)
    (hleaves : ∀ u ∈ t.leaves, u.kind.isName = false) {ancestors : List (Nat × Tree)}
    (hrule : isUnderRule ancestors = false ∨ t.kind.isName = false) (id : Nat) :
    Classified (preorder id ancestors t) t.leaves := by
  induction h generalizing ancestors id with
  | @leaf u hkind =>
    have hname : u.kind.isName = false := hleaves u List.mem_cons_self
    rw [preorder, Tree.leaves_leaf]
    refine Classified.cons_other ?_ ?_
    · exact hname
    · simp [Classified, Token.isHead, Token.isUse, hkind]
  | @name u hkind hline =>
    have hnot : isUnderRule ancestors = false := by
      rcases hrule with hrule | hrule
      · exact hrule
      · rw [isName_nameNode] at hrule
        exact absurd hrule (by decide)
    exact classified_nameNode hkind (by rw [hnot, hline]) id
  | @node kind span ts hname hnot _ ih =>
    rw [preorder, Tree.leaves_node]
    refine Classified.cons_other (by exact hname) (Classified.preorderAll (fun u hu id => ?_) _)
    refine ih u hu (fun v hv => hleaves v ?_) (Or.inl ?_) id
    · rw [Tree.leaves_node]
      exact Tree.mem_leavesAll.mpr ⟨u, hu, hv⟩
    · simpa [isUnderRule, Tree.kind] using hnot

theorem classified_of_entry {t : Tree} (h : t.Entry)
    (hleaves : ∀ u ∈ t.leaves, u.kind.isName = false) {ancestors : List (Nat × Tree)}
    (hrule : isUnderRule ancestors = false) (id : Nat) :
    Classified (preorder id ancestors t) t.leaves := by
  cases h with
  | other h => exact classified_of_referring h hleaves (Or.inl hrule) id
  | @rule head span ts hkind hline hts =>
    rw [preorder, Tree.leaves_node]
    refine Classified.cons_other rfl (Classified.preorderAll (fun u hu id => ?_) _)
    rcases List.mem_cons.mp hu with rfl | hu
    · exact classified_nameNode hkind (by rw [hline]; rfl) id
    · obtain ⟨href, hname⟩ := hts u hu
      refine classified_of_referring href (fun v hv => hleaves v ?_) (Or.inr hname) id
      rw [Tree.leaves_node]
      exact Tree.mem_leavesAll.mpr ⟨u, List.mem_cons_of_mem _ hu, hv⟩

end Site

/-- Every name of a text is in a name node: a head if it starts a line, and a reference if not. -/
theorem classified_root (limit : Nat) (source : Text) :
    Site.Classified (parse limit source).sites (Token.significant source) := by
  have hleaves := leaves_root limit source
  rw [← hleaves]
  show Site.Classified (_ :: _) _
  refine Site.Classified.cons_other rfl (Site.Classified.preorderAll (fun t ht id => ?_) _)
  refine Site.classified_of_entry (Grammar.ruleList_entry limit ht) (fun u hu => ?_) rfl id
  have hmem : u ∈ Token.significant source := by
    rw [← hleaves]
    exact Tree.mem_leavesAll.mpr ⟨t, ht, hu⟩
  have hlex := Token.lexical_of_mem_significant hmem
  revert hlex
  cases u.kind <;> simp [Kind.isLexical, Kind.isName]

/-! ### Heads -/

namespace Site

variable {id : Nat} {ancestors : List (Nat × Tree)} {s : Site}

theorem kind_ne_rule_of_nameNode {t : Token} (hkind : t.kind = .identifier)
    (hs : s ∈ preorder id ancestors (Grammar.nameNode t)) : s.node.kind ≠ .rule := by
  rw [preorder_nameNode, List.mem_cons, List.mem_singleton] at hs
  rcases hs with rfl | rfl
  · intro hrule
    have hname := isName_nameNode t
    rw [show (Grammar.nameNode t).kind = .rule from hrule] at hname
    exact absurd hname (by decide)
  · show t.kind ≠ .rule
    rw [hkind]
    decide

/-- A tree that holds references only holds no rule. -/
theorem kind_ne_rule_of_referring {x : Tree} (h : x.Referring)
    (hleaves : ∀ u ∈ x.leaves, u.kind.isLexical = true) (hs : s ∈ preorder id ancestors x) :
    s.node.kind ≠ .rule := by
  induction h generalizing id ancestors with
  | @leaf t _ =>
    rw [List.mem_singleton.mp hs]
    intro hrule
    have hlexical := hleaves t List.mem_cons_self
    rw [show t.kind = .rule from hrule] at hlexical
    exact absurd hlexical (by decide)
  | name hkind _ => exact kind_ne_rule_of_nameNode hkind hs
  | @node kind span ts _ hkind _ ih =>
    rcases List.mem_cons.mp hs with rfl | hs
    · exact hkind
    · obtain ⟨y, hy, id', hs⟩ := mem_preorderAll hs
      exact ih y hy (fun u hu => hleaves u (Tree.mem_leavesAll.mpr ⟨y, hy, hu⟩)) hs

/-- What is no rule has no heads. -/
theorem heads_eq_nil (hkind : s.node.kind ≠ .rule) : s.heads = [] := if_neg hkind

theorem map_node_siblings (ancestors : List (Nat × Tree)) (id : Nat) (ts : List Tree) :
    (siblings ancestors id ts).map node = ts := by
  induction ts generalizing id with
  | nil => rfl
  | cons t ts ih => rw [siblings, List.map_cons, ih]

/-- Among siblings of which none is a name there is no name. -/
theorem filter_siblings {ts : List Tree} (h : ∀ t ∈ ts, t.kind.isName = false) (id : Nat) :
    (siblings ancestors id ts).filter (·.node.kind.isName) = [] := by
  rw [List.filter_eq_nil_iff]
  intro c hc
  rw [h c.node (mem_siblings hc).1]
  decide

/-- In a tree without rules there is no head, unless the tree itself is one. -/
theorem filter_isHead_eq_nil {x : Tree} (hkind : ∀ s ∈ preorder id ancestors x, s.node.kind ≠ .rule)
    (hrule : isUnderRule ancestors = false ∨ x.kind.isName = false) :
    (preorder id ancestors x).filter isHead = [] := by
  rw [List.filter_eq_nil_iff]
  intro s hs hhead
  obtain ⟨hname, hparent⟩ := Bool.and_eq_true_iff.mp hhead
  rcases parent_of_mem_preorder id ancestors x hs with rfl | ⟨p, hp, hsome, -⟩
  · rw [parent?_any] at hparent
    rcases hrule with hrule | hrule
    · rw [hrule] at hparent
      exact absurd hparent (by decide)
    · rw [show x.kind.isName = true from hname] at hrule
      exact absurd hrule (by decide)
  · rw [hsome, Option.any_some, beq_iff_eq] at hparent
    exact hkind p hp hparent

theorem flatMap_heads_eq_nil {sites : List Site} (h : ∀ s ∈ sites, s.node.kind ≠ .rule) :
    sites.flatMap heads = [] := by
  rw [List.flatMap_eq_nil_iff]
  intro s hs
  exact heads_eq_nil (h s hs)

/-- The head of a rule is the only name directly below it. -/
theorem heads_rule {head : Token} {span : Span} {ts : List Tree}
    (hts : ∀ t ∈ ts, t.kind.isName = false) :
    (Site.mk id (.node .rule span (Grammar.nameNode head :: ts)) ancestors).heads =
      [⟨id + 1, Grammar.nameNode head,
        (id, .node .rule span (Grammar.nameNode head :: ts)) :: ancestors⟩] := by
  refine (if_pos rfl).trans ?_
  refine (List.filter_cons_of_pos (l := siblings _ _ ts) ?_).trans ?_
  · exact isName_nameNode head
  · rw [filter_siblings hts]

/-- A name below a rule is a head, and its token is none. -/
theorem filter_isHead_nameNode {t : Token} (hkind : t.kind = .identifier)
    (hrule : isUnderRule ancestors = true) :
    (preorder id ancestors (Grammar.nameNode t)).filter isHead =
      [⟨id, Grammar.nameNode t, ancestors⟩] := by
  have hleaf : (Tree.leaf t).kind.isName = false := by rw [Tree.kind, hkind]; rfl
  rw [preorder_nameNode, List.filter_cons_of_pos, List.filter_cons_of_neg, List.filter_nil]
  · rw [isHead, hleaf, Bool.false_and]
    exact Bool.false_ne_true
  · rw [isHead, parent?_any, isName_nameNode, hrule]
    rfl

/-- The heads that are found at a rule are the ones that stand in it. -/
theorem flatMap_heads_of_entry {x : Tree} (h : x.Entry)
    (hleaves : ∀ u ∈ x.leaves, u.kind.isLexical = true) (hrule : isUnderRule ancestors = false) :
    (preorder id ancestors x).flatMap heads = (preorder id ancestors x).filter isHead := by
  cases h with
  | other href =>
    have hkind : ∀ s ∈ preorder id ancestors x, s.node.kind ≠ .rule :=
      fun s hs => kind_ne_rule_of_referring href hleaves hs
    rw [flatMap_heads_eq_nil hkind, filter_isHead_eq_nil hkind (Or.inl hrule)]
  | @rule head span ts hkind hline hts =>
    -- the names below the rule are its head alone, and no other site of the rule has or is a head
    have hmore : ∀ s ∈ preorderAll (id + 1 + (Grammar.nameNode head).size)
        ((id, .node .rule span (Grammar.nameNode head :: ts)) :: ancestors) ts,
        s.node.kind ≠ .rule ∧ ¬s.isHead = true := by
      intro s hs
      obtain ⟨u, hu, id', hs⟩ := mem_preorderAll hs
      have hlexical : ∀ v ∈ u.leaves, v.kind.isLexical = true := fun v hv =>
        hleaves v (Tree.mem_leavesAll.mpr ⟨u, List.mem_cons_of_mem _ hu, hv⟩)
      refine ⟨kind_ne_rule_of_referring (hts u hu).1 hlexical hs, List.filter_eq_nil_iff.mp ?_ s hs⟩
      exact filter_isHead_eq_nil (fun r hr => kind_ne_rule_of_referring (hts u hu).1 hlexical hr)
        (Or.inr (hts u hu).2)
    rw [preorder, preorderAll, List.flatMap_cons, List.flatMap_append,
      heads_rule fun t ht => (hts t ht).2,
      flatMap_heads_eq_nil fun s hs => kind_ne_rule_of_nameNode hkind hs,
      flatMap_heads_eq_nil fun s hs => (hmore s hs).1, List.filter_cons_of_neg Bool.false_ne_true,
      List.filter_append, filter_isHead_nameNode hkind rfl,
      List.filter_eq_nil_iff.mpr fun s hs => (hmore s hs).2]
    rfl

theorem flatMap_heads_of_entries {ts : List Tree} (h : ∀ x ∈ ts, x.Entry)
    (hleaves : ∀ u ∈ Tree.leavesAll ts, u.kind.isLexical = true)
    (hrule : isUnderRule ancestors = false) :
    (preorderAll id ancestors ts).flatMap heads = (preorderAll id ancestors ts).filter isHead := by
  induction ts generalizing id with
  | nil => rfl
  | cons x ts ih =>
    rw [Tree.leavesAll_cons] at hleaves
    rw [preorderAll, List.flatMap_append, List.filter_append,
      flatMap_heads_of_entry (h x List.mem_cons_self)
        (fun u hu => hleaves u (List.mem_append_left _ hu)) hrule,
      ih (fun y hy => h y (List.mem_cons_of_mem _ hy))
        fun u hu => hleaves u (List.mem_append_right _ hu)]

end Site

/-- The heads that a pass over a tree finds at the rules are all heads of the tree, in the same order. -/
theorem flatMap_heads_sites (limit : Nat) (source : Text) :
    (parse limit source).sites.flatMap Site.heads = (parse limit source).sites.filter Site.isHead := by
  have hleaves : ∀ u ∈ Tree.leavesAll (parse limit source).root.children, u.kind.isLexical = true := by
    intro u hu
    rw [show Tree.leavesAll (parse limit source).root.children = _ from leaves_root limit source] at hu
    exact Token.lexical_of_mem_significant hu
  have hbelow : (Site.preorderAll 1 [(0, (parse limit source).root)]
      (parse limit source).root.children).flatMap Site.heads = _ :=
    Site.flatMap_heads_of_entries (fun x hx => Grammar.ruleList_entry limit hx) hleaves rfl
  show List.flatMap _ (_ :: Site.preorderAll _ _ (parse limit source).root.children) = _
  rw [List.flatMap_cons, Site.heads_eq_nil (fun h => Kind.noConfusion h), List.nil_append]
  exact hbelow.trans (List.filter_cons_of_neg Bool.false_ne_true).symm

/-- The definitions of a document are the heads of its tree that are not named as a core rule. -/
theorem Index.definitions_ofTree (document : String) (limit : Nat) (source : Text) :
    (ofTree document (parse limit source)).definitions =
      ((parse limit source).sites.filter fun s => s.isHead && !CoreRule.isName s.name).map
        fun s => ⟨document, s⟩ := by
  rw [definitions_ofTree_eq, flatMap_heads_sites, Definition.listAt, List.filter_filter]
  simp only [Bool.and_comm]

/-! ### The index -/

theorem span_nameNode (t : Token) : (Grammar.nameNode t).span = t.span := rfl

theorem spelling_nameNode (t : Token) : (Grammar.nameNode t).spelling = t.name := by
  simp [Grammar.nameNode, Tree.spelling, Token.name]

/-- A name node by its name and its span. -/
theorem label_nameNode {sites : List Site} {tokens : List Token}
    (h : sites.map Site.node = tokens.map Grammar.nameNode) :
    sites.map (fun s => (s.name, s.node.span)) = tokens.map fun t => (t.name, t.span) := by
  have hlabel := congrArg (List.map fun t : Tree => (t.spelling, t.span)) h
  simpa [Site.name, List.map_map, Function.comp_def, spelling_nameNode, span_nameNode] using hlabel

/-- Filtering sites by their names is filtering tokens by theirs. -/
theorem map_node_filter {sites : List Site} {tokens : List Token}
    (h : sites.map Site.node = tokens.map Grammar.nameNode) (p : String → Bool) :
    (sites.filter fun s => p s.name).map Site.node =
      (tokens.filter fun t => p t.name).map Grammar.nameNode := by
  induction sites generalizing tokens with
  | nil =>
    cases tokens with
    | nil => rfl
    | cons t tokens => simp at h
  | cons s sites ih =>
    cases tokens with
    | nil => simp at h
    | cons t tokens =>
      rw [List.map_cons, List.map_cons, List.cons.injEq] at h
      have hname : s.name = t.name := by rw [Site.name, h.1, spelling_nameNode]
      cases hp : p t.name with
      | true =>
        rw [List.filter_cons_of_pos (by rw [hname, hp]), List.filter_cons_of_pos (by rw [hp]),
          List.map_cons, List.map_cons, h.1, ih h.2]
      | false =>
        rw [List.filter_cons_of_neg (by simp [hname, hp]), List.filter_cons_of_neg (by simp [hp]),
          ih h.2]

/-- The names among the tokens of a text. -/
def Token.names (source : Text) : List Token := (scan source).filter (·.kind == .identifier)

/-- Names are part of trees. -/
theorem Token.filter_significant (source : Text) (p : Token → Bool) :
    (significant source).filter (fun t => t.kind == .identifier && p t) = (names source).filter p := by
  rw [significant, names, List.filter_filter, List.filter_filter]
  refine List.filter_congr fun t _ => ?_
  by_cases hk : t.kind = .identifier
  · simp [isSignificant, hk]
  · simp [beq_eq_false_iff_ne.mpr hk]

namespace Index

variable (document : String) (limit : Nat) (source : Text)

/-- The definitions are the names in the first column that are not those of core rules. -/
theorem map_definitions :
    (ofTree document (parse limit source)).definitions.map (fun d => (d.name, d.head.node.span)) =
      ((Token.names source).filter fun t => t.atLineStart && !CoreRule.isName t.name).map
        fun t => (t.name, t.span) := by
  have hkept := map_node_filter (classified_root limit source).1 fun name => !CoreRule.isName name
  rw [List.filter_filter, List.filter_filter] at hkept
  have htokens : (Token.significant source).filter (fun t => !CoreRule.isName t.name && t.isHead) =
      (Token.names source).filter fun t => t.atLineStart && !CoreRule.isName t.name := by
    rw [← Token.filter_significant]
    refine List.filter_congr fun t _ => ?_
    rw [Token.isHead, Bool.and_comm, Bool.and_assoc]
  have hsites : (parse limit source).sites.filter (fun s => !CoreRule.isName s.name && s.isHead) =
      (parse limit source).sites.filter fun s => s.isHead && !CoreRule.isName s.name :=
    List.filter_congr fun s _ => Bool.and_comm _ _
  rw [htokens, hsites] at hkept
  rw [← label_nameNode hkept, definitions_ofTree, List.map_map]
  rfl

/-- The references under a key are the names elsewhere that have this key. -/
theorem map_references (key : String) :
    ((ofTree document (parse limit source)).references.get? key).map
        (·.map fun s => (s.name, s.node.span)) =
      let uses := (Token.names source).filter fun t =>
        !t.atLineStart && RuleName.key t.name == key
      if uses.isEmpty then none else some (uses.map fun t => (t.name, t.span)) := by
  have hkept := map_node_filter (classified_root limit source).2 fun name => RuleName.key name == key
  rw [List.filter_filter (l := Token.significant source)] at hkept
  have htokens : (Token.significant source).filter
      (fun t => (RuleName.key t.name == key) && t.isUse) =
        (Token.names source).filter fun t => !t.atLineStart && RuleName.key t.name == key := by
    rw [← Token.filter_significant]
    refine List.filter_congr fun t _ => ?_
    rw [Token.isUse, Bool.and_comm, Bool.and_assoc]
  rw [htokens] at hkept
  have hlabel := label_nameNode hkept
  have hget := Table.get?_group Site.key ((parse limit source).sites.filter Site.isReference) key
  rw [← references_ofTree document] at hget
  have hempty := congrArg List.isEmpty hlabel
  rw [List.isEmpty_map, List.isEmpty_map] at hempty
  dsimp only
  rw [hget, ← hlabel, ← hempty]
  split
  · exact (if_pos ‹_›).symm
  · exact (if_neg ‹_›).symm

/-- Whether a definition has its name at a span. -/
def DefinesAt (index : Index) (span : Span) : Prop :=
  ∃ d ∈ index.definitions, d.head.node.span = span

/-- Whether a reference stands at a span. -/
def RefersAt (index : Index) (span : Span) : Prop :=
  ∃ key uses, index.references.get? key = some uses ∧ ∃ s ∈ uses, s.node.span = span

/-- A name is known by its span. -/
theorem span_mem_iff {source : Text} {t : Token} (ht : t ∈ Token.names source) (p : Token → Bool) :
    t.span ∈ ((Token.names source).filter p).map Token.span ↔ p t = true := by
  obtain ⟨hscan, hname⟩ := List.mem_filter.mp ht
  rw [Token.names, List.filter_filter, Token.span_mem_filter hscan, Bool.and_eq_true]
  exact and_iff_left hname

theorem definesAt_iff {t : Token} (ht : t ∈ Token.names source) :
    (ofTree document (parse limit source)).DefinesAt t.span ↔
      (t.atLineStart && !CoreRule.isName t.name) = true := by
  have hspans := congrArg (List.map Prod.snd) (map_definitions document limit source)
  rw [List.map_map, List.map_map] at hspans
  rw [← span_mem_iff ht fun u => u.atLineStart && !CoreRule.isName u.name]
  rw [show ((Token.names source).filter _).map Token.span = _ from hspans.symm]
  exact List.mem_map.symm

theorem refersAt_iff {t : Token} (ht : t ∈ Token.names source) :
    (ofTree document (parse limit source)).RefersAt t.span ↔ t.atLineStart = false := by
  constructor
  · rintro ⟨key, uses, hget, s, hs, hspan⟩
    have href := map_references document limit source key
    rw [hget] at href
    dsimp only [Option.map_some] at href
    split at href
    · exact absurd href (by simp)
    · have hspans := congrArg (List.map Prod.snd) (Option.some.inj href)
      rw [List.map_map, List.map_map] at hspans
      have hmem : t.span ∈ uses.map fun s => s.node.span := hspan ▸ List.mem_map_of_mem hs
      rw [show uses.map (fun s => s.node.span) = _ from hspans] at hmem
      have hp := (span_mem_iff ht _).mp hmem
      simpa using (Bool.and_eq_true_iff.mp hp).1
  · intro hline
    have href := map_references document limit source (RuleName.key t.name)
    have hp : (!t.atLineStart && RuleName.key t.name == RuleName.key t.name) = true := by
      simp [hline]
    have hmem := (span_mem_iff ht
      fun u => !u.atLineStart && RuleName.key u.name == RuleName.key t.name).mpr hp
    dsimp only at href
    rw [if_neg] at href
    · obtain ⟨uses, hget, huses⟩ := Option.map_eq_some_iff.mp href
      have hspans := congrArg (List.map Prod.snd) huses
      rw [List.map_map, List.map_map] at hspans
      rw [show ((Token.names source).filter _).map Token.span = _ from hspans.symm] at hmem
      obtain ⟨s, hs, hspan⟩ := List.mem_map.mp hmem
      exact ⟨_, uses, hget, s, hs, hspan⟩
    · intro hempty
      rw [List.isEmpty_iff.mp hempty] at hmem
      exact absurd hmem List.not_mem_nil

end Index

/-- The index of a document is a search through the tokens of its text.  The definitions are, in the
order of the text, the names in the first column that are not those of core rules.  A key has an entry
iff a name elsewhere has this key, and the entry lists these names in the order of the text.  So each
name is one of a definition, a reference and a core rule at the head of a rule. -/
theorem index_eq_scan (document : String) (limit : Nat) (source : Text) :
    let index := Index.ofTree document (parse limit source)
    let names := (Token.scan source).filter (·.kind == .identifier)
    index.definitions.map (fun d => (d.name, d.head.node.span)) =
        (names.filter fun t => t.atLineStart && !CoreRule.isName t.name).map
          (fun t => (t.name, t.span)) ∧
      (∀ key, (index.references.get? key).map (·.map fun s => (s.name, s.node.span)) =
        let uses := names.filter fun t => !t.atLineStart && RuleName.key t.name == key
        if uses.isEmpty then none else some (uses.map fun t => (t.name, t.span))) ∧
      ∀ t ∈ names,
        let isCoreHead : Prop := (t.atLineStart && CoreRule.isName t.name) = true
        index.DefinesAt t.span ∧ ¬index.RefersAt t.span ∧ ¬isCoreHead ∨
          ¬index.DefinesAt t.span ∧ index.RefersAt t.span ∧ ¬isCoreHead ∨
          ¬index.DefinesAt t.span ∧ ¬index.RefersAt t.span ∧ isCoreHead := by
  refine ⟨Index.map_definitions document limit source, Index.map_references document limit source, ?_⟩
  intro t ht
  dsimp only
  rw [Index.definesAt_iff document limit source ht, Index.refersAt_iff document limit source ht]
  cases t.atLineStart <;> cases CoreRule.isName t.name <;> simp

/-- The name of a core rule at the head of a rule, after a line with a stray bracket, is neither a
definition nor a reference. -/
theorem index_eq_scan_core_head :
    let source := "a = b )\nALPHA = a".toList
    let index := Index.ofTree "grammar" (parse 1 source)
    let t : Token := ⟨.identifier, "ALPHA".toList, 8, true⟩
    t ∈ (Token.scan source).filter (·.kind == .identifier) ∧
      ¬index.DefinesAt t.span ∧ ¬index.RefersAt t.span ∧
      (t.atLineStart && CoreRule.isName t.name) = true := by
  intro source index t
  have ht : t ∈ (Token.scan source).filter (·.kind == .identifier) := by decide +kernel
  have hcore : (t.atLineStart && CoreRule.isName t.name) = true := by decide +kernel
  rcases (index_eq_scan "grammar" 1 source).2.2 t ht with h | h | h
  · exact absurd hcore h.2.2
  · exact absurd hcore h.2.2
  · exact ⟨ht, h⟩

end Abnf
