/-
What is shown of a rule.

For a name that is not that of a core rule, the first rule is shown that has the name at its head.  What is shown
of it is the text of its elements.  These start with the first token of the rule after its head and what defines
it (`Grammar.head?_elements`): the comments between them are taken before the elements are begun.  They hold all
later tokens of the rule, and the comments after the last of them only where the rule ends in the middle of
something, so all that is said about their end is that no other rule has begun (`Grammar.RuleAt.shows`).
-/
import Abnf.Proofs.Navigation
import Abnf.Proofs.Rules

namespace Abnf

/-- The tokens after the head of a rule, without the one that says that the rule is defined. -/
def Token.afterDefiner : List Token → List Token
  | [] => []
  | t :: ts => if t.kind = .equals ∨ t.kind = .incrementalEquals then ts else t :: ts

/-- What is shown of a rule with some tokens in its body, after which the text goes on with other tokens.  Without
tokens it is nothing.  Otherwise it is the text from the first token up to an offset at or after the stop of
the last one, before the other tokens. -/
structure Text.Shows (source : Text) (body rest : List Token) (shown : String) : Prop where
  nothing : body = [] → shown = ""
  slice : ∀ first last, body.head? = some first → body.getLast? = some last →
    ∃ stop, last.span.stop ≤ stop ∧ stop ≤ source.byteLength ∧ (∀ u ∈ rest, stop ≤ u.start) ∧
      shown = String.ofList (source.slice ⟨first.start, stop⟩).trim

theorem Text.slice_empty (source : Text) (offset : Nat) : source.slice (.empty offset) = [] := by
  rw [slice, Span.empty, Span.length, Nat.sub_self]
  cases dropBytes offset source with
  | nil => rfl
  | cons c cs => rw [takeBytes, if_neg (Nat.not_le_of_lt c.utf8Size_pos)]

/-! ### The elements of a rule -/

namespace Reader

/-- Whether the tokens do not start with a comment. -/
def Flushed (ts : List Token) : Prop := comments.read ts = ([], ts)

theorem Flushed.isComment {t : Token} {us : List Token} (h : Flushed (t :: us)) : t.isComment = false := by
  cases hc : t.isComment with
  | false => rfl
  | true => simp [Flushed, comments, hc] at h

end Reader

namespace Grammar

open Reader Token

theorem line_afterName (us : List Token) : line (afterName.read us).2 = afterDefiner (line us) := by
  rw [afterName, seq_read, line_comments]
  cases h : isAtDefinedAs us with
  | true =>
    obtain ⟨t, vs, hvs, hkind, hline, hc⟩ := comments_of_isAtDefinedAs h
    rw [choose_pos h, node_read, hvs, token_read_cons hc, ← line_comments us, hvs, line_cons hc hline,
      afterDefiner, if_pos hkind]
  | false =>
    rw [choose_neg h]
    show line us = _
    cases hrule : inRule us with
    | false =>
      rw [(line_eq_nil hrule).1]
      rfl
    | true =>
      obtain ⟨t, vs, hvs, hline, hc, hat⟩ := comments_of_inRule hrule
      rw [← line_comments us, hvs, line_cons hc hline, afterDefiner, if_neg]
      simpa [isAtDefinedAs, hat] using h

/-- The comments before the elements of a rule are not part of them. -/
theorem flushed_afterName (us : List Token) : Flushed (afterName.read us).2 :=
  comments_comments _

section

variable (limit : Nat) {ts : List Token}

/-- The tokens of the elements other than comments are what is left of the run. -/
theorem withoutComments_elements (ts : List Token) :
    withoutComments (Tree.leavesAll ((elements limit).read ts).1) = line ts := by
  have hkeeps := congrArg withoutComments ((elements limit).keeps ts)
  have hsplit : line ts ++ later ts = withoutComments ts := List.takeWhile_append_dropWhile
  rw [withoutComments_append, (elements_rest limit ts).2, ← hsplit] at hkeeps
  exact List.append_cancel_right hkeeps

/-- The elements start with the next token of the run. -/
theorem head?_elements (h : Flushed ts) :
    (Tree.leavesAll ((elements limit).read ts).1).head? = (line ts).head? := by
  have hkeeps := (elements limit).keeps ts
  rw [← withoutComments_elements limit ts]
  cases hleaves : Tree.leavesAll ((elements limit).read ts).1 with
  | nil => rfl
  | cons u more =>
    rw [hleaves, List.cons_append] at hkeeps
    rw [← hkeeps] at h
    rw [withoutComments_cons h.isComment]
    rfl

theorem solid_elements {x : Tree} (hx : x ∈ ((elements limit).read ts).1) : x.Solid :=
  (kept_solid limit).elements ts x hx

/-- Elements that hold trees span their tokens. -/
theorem spanOf_elements (hne : ((elements limit).read ts).1 ≠ []) (offset : Nat) :
    ∃ first last, (Tree.leavesAll ((elements limit).read ts).1).head? = some first ∧
      (Tree.leavesAll ((elements limit).read ts).1).getLast? = some last ∧
      Tree.spanOf ((elements limit).read ts).1 offset = ⟨first.start, last.span.stop⟩ := by
  rw [Tree.spanOf_of_ne_nil hne offset 0]
  exact Tree.spansLeaves_branch .elements hne fun x hx => (solid_elements limit hx).spansLeaves

/-- There are elements iff the run goes on. -/
theorem elements_eq_nil_iff (h : Flushed ts) : ((elements limit).read ts).1 = [] ↔ line ts = [] := by
  constructor
  · intro hnil
    rw [← withoutComments_elements limit ts, hnil]
    rfl
  · intro hline
    by_contra hne
    obtain ⟨first, -, hfirst, -⟩ := spanOf_elements limit hne 0
    rw [head?_elements limit h, hline] at hfirst
    cases hfirst

end

theorem kind_ne_elements_of_mem_afterName {us : List Token} {x : Tree} (hx : x ∈ (afterName.read us).1) :
    x.kind ≠ .elements := by
  rcases mem_afterName hx with ⟨t, rfl, ht⟩ | ⟨t, rfl, -⟩
  · rw [Tree.kind, kind_of_isComment ht]
    decide
  · exact fun h => absurd (show Kind.definedAs = .elements from h) (by decide)

namespace RuleAt

variable {limit : Nat} {ts us : List Token} {before : List Tree} {head : Token} {x : Tree}
  (h : RuleAt limit ts before head us x)
include h

/-- The elements of a rule are its last child, and the only one of this kind. -/
theorem find?_elements : x.children.find? (·.kind == .elements) =
    some (elementsNode limit (nameNode head :: (afterName.read us).1) (afterName.read us).2) := by
  rw [h.eq_branch]
  show List.find? _ (_ :: _) = _
  have hname : (nameNode head).kind ≠ .elements := by
    intro hkind
    have hisName := Site.isName_nameNode head
    rw [hkind] at hisName
    exact absurd hisName (by decide)
  have hbefore : (afterName.read us).1.find? (·.kind == .elements) = none := by
    rw [List.find?_eq_none]
    intro y hy
    simpa using kind_ne_elements_of_mem_afterName hy
  rw [List.find?_cons_of_neg (by simpa using hname), List.find?_append, hbefore]
  rfl

/-- The name at the head of a rule is the only name below it. -/
theorem eq_head {t : Token} (ht : nameNode t ∈ x.children) : t = head := by
  rw [h.eq_branch] at ht
  rcases List.mem_cons.mp ht with hname | hmem
  · exact nameNode_inj hname
  · have hnot : (nameNode t).kind.isName = false := by
      rcases List.mem_append.mp hmem with hmem | hmem
      · exact (afterName_referring hmem).2
      · rw [List.mem_singleton.mp hmem]
        rfl
    rw [Site.isName_nameNode] at hnot
    exact absurd hnot (by decide)

theorem rest_eq : ((rule limit).read (head :: us)).2 = ((elements limit).read (afterName.read us).2).2 := by
  rw [rule_read limit h.isComment]

/-- The tokens of a rule are those up to its elements and those of its elements. -/
theorem leaves_eq : x.leaves = (head :: Tree.leavesAll (afterName.read us).1) ++
    Tree.leavesAll ((elements limit).read (afterName.read us).2).1 := by
  conv => lhs; rw [h.eq_branch]
  rw [Tree.leaves_branch, Tree.leavesAll_cons, Tree.leavesAll_append, Tree.leavesAll_cons,
    Tree.leavesAll_nil, List.append_nil]
  rfl

/-- The tokens other than comments are those before the rule, its head, its run and the later ones. -/
theorem withoutComments_tokens :
    withoutComments ts = withoutComments (Tree.leavesAll before) ++ head :: (line us ++ later us) := by
  rw [h.tokens, withoutComments_append, withoutComments_cons h.isComment, line, later,
    List.takeWhile_append_dropWhile]

/-- What is shown of a rule. -/
theorem shows {source : Text} (hts : ts = significant source) :
    source.Shows (afterDefiner (line us)) (later us) (String.ofList (source.slice (elementsNode limit
      (nameNode head :: (afterName.read us).1) (afterName.read us).2).span).trim) := by
  have hflushed := flushed_afterName us
  rw [← line_afterName]
  constructor
  · intro hnil
    rw [elementsNode, Tree.span, (elements_eq_nil_iff limit hflushed).mpr hnil]
    exact congrArg (String.ofList ·.trim) (Text.slice_empty source _)
  · intro first last hfirst hlast
    have hne : ((elements limit).read (afterName.read us).2).1 ≠ [] := by
      intro hnil
      rw [(elements_eq_nil_iff limit hflushed).mp hnil] at hfirst
      cases hfirst
    obtain ⟨first', stop, hfirst', hstop, hspan⟩ :=
      spanOf_elements limit hne (Tree.spanOf (nameNode head :: (afterName.read us).1) 0).stop
    rw [head?_elements limit hflushed, hfirst, Option.some.injEq] at hfirst'
    have hleaf : ∀ u ∈ Tree.leavesAll ((elements limit).read (afterName.read us).2).1, u ∈ x.leaves := by
      intro u hu
      rw [h.leaves_eq]
      exact List.mem_append_right _ hu
    have hmem := hleaf stop (List.mem_of_getLast? hstop)
    refine ⟨stop.span.stop, ?_, ?_, fun u hu => ?_, ?_⟩
    · -- the last token of the run is one of the elements, and none of them stops later than the last
      have hrun := List.mem_of_getLast? hlast
      rw [← withoutComments_elements limit] at hrun
      have hend : x.leaves.getLast? = some stop := by
        rw [h.leaves_eq, List.getLast?_append, hstop]
        rfl
      rcases before_or_eq_of_getLast? (h.sorted_leaves hts) hend (hleaf last (List.mem_of_mem_filter hrun))
        with hbefore | rfl
      · exact Nat.le_trans hbefore.2 (Nat.le_add_right _ _)
      · exact Nat.le_refl _
    · exact stop_le_byteLength (List.mem_of_mem_filter ((h.mem_significant_iff hts).mpr (Or.inr (Or.inl hmem))))
    · rw [← later_afterName, ← (elements_rest limit _).2, ← h.rest_eq] at hu
      exact (h.before_rest hts hmem (List.mem_of_mem_filter hu)).2
    · rw [elementsNode, Tree.span, hspan, hfirst']

end RuleAt

end Grammar

/-! ### Definitions -/

namespace Index

variable {document : String} {limit : Nat} {source : Text}

/-- A definition is a rule of the text, with its head. -/
theorem exists_ruleAt_of_definition {d : Definition}
    (h : d ∈ (ofTree document (parse limit source)).definitions) :
    ∃ before head us x, d.rule? = some x ∧ d.head.node = Grammar.nameNode head ∧
      Grammar.RuleAt limit (Token.significant source) before head us x := by
  rw [definitions_ofTree] at h
  obtain ⟨s, hs, rfl⟩ := List.mem_map.mp h
  obtain ⟨hsite, hboth⟩ := List.mem_filter.mp hs
  have hhead := (Bool.and_eq_true_iff.mp hboth).1
  obtain ⟨hname, hparent⟩ := Bool.and_eq_true_iff.mp hhead
  -- the name is below a rule, and it is the head of it
  have hnode := List.mem_map_of_mem (f := Site.node) (List.mem_filter.mpr ⟨hsite, hhead⟩)
  rw [(classified_root limit source).1] at hnode
  obtain ⟨t, -, ht⟩ := List.mem_map.mp hnode
  rcases Site.parent_of_mem_preorder _ _ _ hsite with rfl | ⟨p, hp, hsome, hchild⟩
  · exact absurd (show Kind.sourceFile.isName = true from hname) (by decide)
  · rw [hsome, Option.any_some, beq_iff_eq] at hparent
    obtain ⟨before, head, us, hrule⟩ := Grammar.exists_ruleAt (rule_mem_root hp hparent) hparent
    have heq : t = head := hrule.eq_head (by rw [ht]; exact hchild)
    refine ⟨before, head, us, p.node, ?_, ?_, hrule⟩
    · rw [Definition.rule?, hsome, Option.map_some]
    · rw [← heq, ht]

/-- What is shown for a name that is not that of a core rule. -/
theorem hover?_of_name {t : Token} (ht : t ∈ Token.scan source) (hkind : t.kind = .identifier)
    {offset : Nat} (hoffset : t.span.contains offset = true) (hcore : CoreRule.isName t.name = false) :
    (ofTree document (parse limit source)).hover? offset =
      ((ofTree document (parse limit source)).definitionOf? t.name).map fun d =>
        ⟨t.span, .rule d.name ((ofTree document (parse limit source)).bodyOf d)
          ((ofTree document (parse limit source)).referencesOf t.name).length⟩ := by
  obtain ⟨target, -, htarget, hnode⟩ := SyntaxTree.targetAt?_of_name limit ht hkind hoffset
  have hname : target.name = t.name := by rw [Site.name, hnode, spelling_nameNode]
  have hfind : CoreRule.find? t.name = none := by
    rwa [CoreRule.isName, Option.isSome_eq_false_iff, Option.isNone_iff_eq_none] at hcore
  rw [hover?, show (ofTree document (parse limit source)).targetAt? offset = _ from htarget,
    Option.bind_eq_bind, Option.bind_some, hname, hnode, span_nameNode, hoverContent?, hfind]
  cases (ofTree document (parse limit source)).definitionOf? t.name <;> rfl

end Index

/-- What is shown for a name.  Let an offset be on a name that is not that of a core rule.  Something is shown iff
a rule of that name is defined.  Then it is the name as it is spelled at the first name in the first column that
has its key, the number of names elsewhere that have its key, and the text of the body of the rule at that first
name: the tokens up to the next one that starts a line, without what defines the rule. -/
theorem hover_shows_first_definition (document : String) (limit : Nat) (source : Text) (offset : Nat)
    (t : Token) (ht : t ∈ Token.scan source) (hkind : t.kind = .identifier)
    (hoffset : t.span.contains offset = true) (hcore : CoreRule.isName t.name = false) :
    let index := Index.ofTree document (parse limit source)
    let tokens := (Token.scan source).filter fun u => u.isSignificant && !u.isComment
    let names := (Token.scan source).filter (·.kind == .identifier)
    let definers := names.filter fun u => u.atLineStart && RuleName.key u.name == RuleName.key t.name
    let uses := names.filter fun u => !u.atLineStart && RuleName.key u.name == RuleName.key t.name
    ((index.hover? offset).isSome = true ↔
        ∃ d ∈ index.definitions, RuleName.key d.name = RuleName.key t.name) ∧
      ∀ card, index.hover? offset = some card →
        ∃ first body, definers.head? = some first ∧
          card = ⟨t.span, .rule first.name body uses.length⟩ ∧
          ∃ front run rest, tokens = front ++ first :: (run ++ rest) ∧
            (∀ u ∈ run, u.atLineStart = false) ∧ (∀ u, rest.head? = some u → u.atLineStart = true) ∧
            source.Shows (Token.afterDefiner run) rest body := by
  intro index tokens names definers uses
  have hhover : index.hover? offset = _ := Index.hover?_of_name ht hkind hoffset hcore
  constructor
  · rw [hhover, Option.isSome_map, Index.definitionOf?, List.isSome_head?, Index.definitionsOf_eq_filter]
    simp only [ne_eq, List.filter_eq_nil_iff, beq_iff_eq, not_forall, not_not, exists_prop]
    exact Iff.rfl
  · intro card hcard
    rw [hhover, Option.map_eq_some_iff] at hcard
    obtain ⟨d, hd, rfl⟩ := hcard
    have hmem := List.mem_of_head? hd
    rw [Index.definitionsOf_eq_filter] at hmem
    obtain ⟨before, head, us, x, hx, hnode, hrule⟩ :=
      Index.exists_ruleAt_of_definition (List.mem_of_mem_filter hmem)
    have hscan : head ∈ Token.scan source := by
      refine List.mem_of_mem_filter (p := Token.isSignificant) (?_ : head ∈ Token.significant source)
      rw [hrule.tokens]
      exact List.mem_append_right _ List.mem_cons_self
    -- the head of the first definition is the first name in the first column that has the key
    have hfirst : definers.head? = some head := by
      have hspans := congrArg List.head? (Index.definitionsOf_spans document limit source hcore)
      rw [List.head?_map, show (Index.definitionsOf _ t.name).head? = _ from hd, List.head?_map, eq_comm,
        Option.map_some, Option.map_eq_some_iff, hnode, span_nameNode] at hspans
      obtain ⟨u, hu, hspan⟩ := hspans
      have humem := (Token.mem_names.mp (List.mem_of_mem_filter (List.mem_of_head? hu))).1
      rw [← Token.eq_of_span_eq humem hscan hspan]
      exact hu
    have huses : (index.referencesOf t.name).length = uses.length := by
      have hspans := congrArg List.length (Index.referencesOf_spans document limit source t.name)
      rwa [List.length_map, List.length_map] at hspans
    have hname : d.name = head.name := by
      rw [Definition.name, Site.name, hnode, spelling_nameNode]
    refine ⟨head, index.bodyOf d, hfirst, ?_, Token.withoutComments (Tree.leavesAll before),
      Reader.line us, Reader.later us, ?_, ?_, ?_, ?_⟩
    · rw [hname, ← huses]
    · rw [← hrule.withoutComments_tokens, Token.withoutComments, Token.significant, List.filter_filter]
      exact List.filter_congr fun u _ => Bool.and_comm _ _
    · intro u hu
      simpa [Token.isInLine] using List.all_eq_true.mp List.all_takeWhile u hu
    · intro u hu
      have hnot := List.head?_dropWhile_not Token.isInLine (Token.withoutComments us)
      rw [show (List.dropWhile Token.isInLine _).head? = some u from hu] at hnot
      simpa [Token.isInLine] using hnot
    · rw [Index.bodyOf, hx, Option.bind_some, hrule.find?_elements]
      exact hrule.shows rfl

/-- A rule that is defined twice and whose first definition ends after a slash.  A use of its name in other
letters shows this definition as it is spelled, from the group on and up to the comment after the slash. -/
theorem hover_shows_first_definition_left_open :
    let source : Text := "ab =/ ; one\n (c) / ; two\nd = AB\nAb = d".toList
    let index := Index.ofTree "grammar" (parse 0 source)
    let t : Token := ⟨.identifier, "AB".toList, 29, false⟩
    t ∈ Token.scan source ∧ t.span.contains 30 = true ∧ CoreRule.isName t.name = false ∧
      index.hover? 30 = some ⟨⟨29, 31⟩, .rule "ab" "(c) / ; two" 1⟩ ∧
      ∃ front run rest,
        ((Token.scan source).filter fun u => u.isSignificant && !u.isComment) =
          front ++ ⟨.identifier, "ab".toList, 0, true⟩ :: (run ++ rest) ∧
        (∀ u ∈ run, u.atLineStart = false) ∧ (∀ u, rest.head? = some u → u.atLineStart = true) ∧
        source.Shows (Token.afterDefiner run) rest "(c) / ; two" := by
  intro source index t
  have ht : t ∈ Token.scan source := by decide +kernel
  have hcore : CoreRule.isName t.name = false := by decide +kernel
  have hhover : index.hover? 30 = some ⟨⟨29, 31⟩, .rule "ab" "(c) / ; two" 1⟩ := by decide +kernel
  obtain ⟨-, hshown⟩ := hover_shows_first_definition "grammar" 0 source 30 t ht rfl (by decide) hcore
  obtain ⟨first, body, hfirst, hcard, hbody⟩ := hshown _ hhover
  have hhead : first = ⟨.identifier, "ab".toList, 0, true⟩ := by
    refine Option.some.inj (hfirst.symm.trans ?_)
    decide +kernel
  have hshown : body = "(c) / ; two" := by
    injection hcard with _ hcontent
    injection hcontent with _ hbody
    exact hbody.symm
  rw [hhead, hshown] at hbody
  exact ⟨ht, by decide, hcore, hhover, hbody⟩

end Abnf
