/-
Comments after rules.

A comment after the last token of a rule, and before the next token that starts a line (`Token.Trails`), can be
meant for the rule that follows.  It stands below the root, outside of the rule before it, iff that rule does not
end in an open place (`isLeftOpen`): a rule that ends with a slash, an opener or a token that fits nowhere, or that
has no elements, takes it (`trailing_comments_exact`).  So rules do not always end with their last token
(`comment_taken_by_open_rule`).
-/
import Abnf.Feature.Outline
import Abnf.Proofs.OpenRules

namespace Abnf

/-- Whether a rule with some tokens other than comments, its head first, ends in an open place. -/
def isLeftOpen (limit : Nat) (run : List Token) : Bool :=
  (run.tail.foldl (Progress.after limit) .start).isOpen

/-- A comment after a token of a text, and before the next token other than comments that starts a line. -/
structure Token.Trails (c : Token) (source : Text) (last : Token) : Prop where
  mem : c ∈ scan source
  isComment : c.isComment = true
  after : last.span.stop ≤ c.start
  before : ∀ u ∈ scan source, u.isSignificant = true → u.isComment = false → u.atLineStart = true →
    last.span.stop ≤ u.start → c.start < u.start

theorem Token.Trails.not_before {source : Text} {last c : Token} (h : c.Trails source last) :
    ¬c.Before last := by
  rintro ⟨hlt, hle⟩
  have hstart : last.start ≤ last.span.stop := Nat.le_add_right _ _
  have hafter := h.after
  omega

theorem Token.Trails.mem_significant {source : Text} {last c : Token} (h : c.Trails source last) :
    c ∈ significant source := by
  refine List.mem_filter.mpr ⟨h.mem, ?_⟩
  rw [isSignificant, kind_of_isComment h.isComment]
  rfl

theorem Token.Trails.contains_start {source : Text} {last c : Token} (h : c.Trails source last) :
    c.span.contains c.start = true :=
  Span.contains_iff.mpr ⟨Nat.le_refl _, start_lt_stop h.mem_significant⟩

/-- The last token, if it is no comment, is the last one other than comments. -/
theorem Token.getLast?_withoutComments {ts : List Token} {t : Token} (h : ts.getLast? = some t)
    (hc : t.isComment = false) : (withoutComments ts).getLast? = some t := by
  obtain ⟨front, rfl⟩ := List.getLast?_eq_some_iff.mp h
  rw [withoutComments_append, withoutComments_cons hc]
  exact List.getLast?_concat

/-- Where a rule has no next token, the next token starts a line. -/
theorem Reader.atLineStart_of_not_inRule {ts us : List Token} {t : Token} (h : inRule ts = false)
    (hus : (comments.read ts).2 = t :: us) : t.atLineStart = true := by
  cases hl : t.atLineStart with
  | true => rfl
  | false => simp [inRule, peek?, next?_of_comments hus, hl] at h

namespace Grammar

open Reader Token

/-- What defines a rule does not take it out of the open place after its head. -/
theorem foldl_afterDefiner (limit : Nat) (run : List Token) :
    (afterDefiner run).foldl (Progress.after limit) .start = run.foldl (Progress.after limit) .start := by
  cases run with
  | nil => rfl
  | cons t ts =>
    rw [afterDefiner]
    split
    · rename_i hkind
      have hafter : Progress.after limit .start t = .start := by
        rcases hkind with hkind | hkind <;>
          exact Progress.after_stray (by rw [hkind]; rfl) (by simp [hkind]) (by simp [hkind]) (by simp [hkind])
      rw [List.foldl_cons, hafter]
    · rfl

theorem spansLeaves_elementsNode {limit : Nat} (before : List Tree) {ts : List Token}
    (hne : ((elements limit).read ts).1 ≠ []) : (elementsNode limit before ts).SpansLeaves :=
  spanOf_elements limit hne _

namespace RuleAt

variable {limit : Nat} {ts us : List Token} {before : List Tree} {head : Token} {x : Tree}
  (h : RuleAt limit ts before head us x)
include h

theorem isLeftOpen_eq :
    isLeftOpen limit (withoutComments x.leaves) = leavesOpen limit .start (afterName.read us).2 := by
  rw [isLeftOpen, h.withoutComments_leaves, List.tail_cons, leavesOpen, line_afterName, foldl_afterDefiner]

/-- A rule that does not end in an open place ends with a token other than a comment. -/
theorem getLast?_leaves (hclosed : isLeftOpen limit (withoutComments x.leaves) = false) {last : Token}
    (hlast : (withoutComments x.leaves).getLast? = some last) : x.leaves.getLast? = some last := by
  rw [h.isLeftOpen_eq] at hclosed
  obtain ⟨t, ht, hc⟩ := getLast?_elements limit _ hclosed
  have hleaves : x.leaves.getLast? = some t := by
    rw [h.leaves_eq, List.getLast?_append, ht]
    rfl
  rw [hleaves, ← getLast?_withoutComments hleaves hc, hlast]

/-- Where a rule has elements, its last token is one of them. -/
theorem last_mem_elements (hbody : afterDefiner (line us) ≠ []) {last : Token}
    (hlast : (withoutComments x.leaves).getLast? = some last) :
    last ∈ Tree.leavesAll ((elements limit).read (afterName.read us).2).1 := by
  have hrun := withoutComments_elements limit (afterName.read us).2
  rw [line_afterName] at hrun
  rw [h.leaves_eq, withoutComments_append, hrun, List.getLast?_append_of_ne_nil _ hbody, ← hrun] at hlast
  exact List.mem_of_mem_filter (List.mem_of_getLast? hlast)

section

variable {source : Text} (hts : ts = significant source)
include hts

variable {last c : Token} (hlast : (withoutComments x.leaves).getLast? = some last)
  (hc : c.Trails source last)
include hlast hc

/-- A comment after a rule is one of its own, or one of those that are left directly after it. -/
theorem mem_of_trails :
    c ∈ x.leaves ∨ Tree.leaf c ∈ (comments.read ((rule limit).read (head :: us)).2).1 := by
  have hmemLast : last ∈ x.leaves := List.mem_of_mem_filter (List.mem_of_getLast? hlast)
  rcases (h.mem_significant_iff hts).mp hc.mem_significant with hmem | hmem | hmem
  · exact absurd (h.before_leaves hts hmem hmemLast) hc.not_before
  · exact Or.inl hmem
  right
  have hkeeps := comments.keeps ((rule limit).read (head :: us)).2
  have hsorted := (List.pairwise_append.mp (List.pairwise_append.mp (h.sorted hts)).2.1).2.1
  rw [← hkeeps] at hmem hsorted
  rcases List.mem_append.mp hmem with hmem | hlater
  · obtain ⟨y, hy, hcy⟩ := Tree.mem_leavesAll.mp hmem
    obtain ⟨d, rfl, -⟩ := mem_comments hy
    rwa [List.mem_singleton.mp hcy]
  · -- the next token other than comments starts a line, so the comment stands before it
    exfalso
    obtain ⟨u, vs, hus⟩ := List.exists_cons_of_ne_nil (List.ne_nil_of_mem hlater)
    have hu : u ∈ ((rule limit).read (head :: us)).2 := by
      rw [← hkeeps, hus]
      exact List.mem_append_right _ List.mem_cons_self
    obtain ⟨hscan, hsig⟩ := List.mem_filter.mp ((h.mem_significant_iff hts).mpr (Or.inr (Or.inr hu)))
    have hlt := hc.before u hscan hsig (isComment_of_next? (next?_of_comments hus))
      (atLineStart_of_not_inRule h.inRule_rest hus) (h.before_rest hts hmemLast hu).2
    rw [hus] at hlater hsorted
    rcases List.mem_cons.mp hlater with rfl | hlater
    · exact absurd hlt (Nat.lt_irrefl _)
    · obtain ⟨hpos, hle⟩ := List.rel_of_pairwise_cons (List.pairwise_append.mp hsorted).2.1 hlater
      omega

/-- A rule that ends in an open place has taken the comments after its last token. -/
theorem mem_leaves_of_open (hopen : isLeftOpen limit (withoutComments x.leaves) = true) :
    c ∈ x.leaves := by
  refine (h.mem_of_trails hts hlast hc).resolve_right fun hleft => ?_
  rw [h.isLeftOpen_eq] at hopen
  rw [h.rest_eq, flushed_elements limit _ hopen] at hleft
  exact List.not_mem_nil hleft

theorem not_mem_leaves_of_closed (hclosed : isLeftOpen limit (withoutComments x.leaves) = false) :
    c ∉ x.leaves := by
  intro hmem
  rcases before_or_eq_of_getLast? (h.sorted_leaves hts) (h.getLast?_leaves hclosed hlast) hmem
    with hbefore | rfl
  · exact hc.not_before hbefore
  · have hnot := (List.mem_filter.mp (List.mem_of_getLast? hlast)).2
    rw [hc.isComment] at hnot
    exact absurd hnot (by decide)

theorem mem_leaves_iff : c ∈ x.leaves ↔ isLeftOpen limit (withoutComments x.leaves) = true := by
  refine ⟨fun hmem => ?_, h.mem_leaves_of_open hts hlast hc⟩
  by_contra hclosed
  exact h.not_mem_leaves_of_closed hts hlast hc (Bool.eq_false_iff.mpr hclosed) hmem

/-- A comment after a rule that the rule does not hold comes after all of its tokens. -/
theorem before_of_not_mem (hnot : c ∉ x.leaves) : ∀ v ∈ x.leaves, v.Before c := by
  intro v hv
  have hleft := (h.mem_of_trails hts hlast hc).resolve_left hnot
  refine h.before_rest hts hv ?_
  rw [← comments.keeps ((rule limit).read (head :: us)).2]
  exact List.mem_append_left _ (Tree.mem_leavesAll.mpr ⟨_, hleft, List.mem_singleton.mpr rfl⟩)

/-- A comment after a rule stands next to the rule iff it is not one of its tokens. -/
theorem mem_trees_iff : Tree.leaf c ∈ ((ruleList limit).read ts).1 ↔ c ∉ x.leaves := by
  rw [h.trees, List.mem_append, List.mem_cons]
  constructor
  · intro hchild hmem
    have hirrefl : ¬c.Before c := fun hself => Nat.not_lt_of_le hself.2 hself.1
    have hleaf : ∀ {trees : List Tree}, Tree.leaf c ∈ trees → c ∈ Tree.leavesAll trees :=
      fun hy => Tree.mem_leavesAll.mpr ⟨_, hy, List.mem_singleton.mpr rfl⟩
    rcases hchild with hchild | hchild | hchild
    · exact hirrefl (h.before_leaves hts (hleaf hchild) hmem)
    · have hkind := congrArg Tree.kind (hchild.trans h.eq_branch)
      rw [Tree.kind, kind_of_isComment hc.isComment] at hkind
      exact absurd (show Kind.comment = .rule from hkind) (by decide)
    · have hrest := hleaf hchild
      rw [leavesAll_ruleList] at hrest
      exact hirrefl (h.before_rest hts hmem hrest)
  · intro hnot
    rw [ruleList_comments]
    exact Or.inr (Or.inr (List.mem_append_left _ ((h.mem_of_trails hts hlast hc).resolve_left hnot)))

/-- A rule covers a comment after it iff it ends in an open place. -/
theorem contains_eq : x.span.contains c.start = isLeftOpen limit (withoutComments x.leaves) := by
  cases hopen : isLeftOpen limit (withoutComments x.leaves) with
  | true =>
    exact Tree.contains_of_mem h.placed.spansLeaves hc.contains_start (h.sorted_leaves hts)
      (h.mem_leaves_of_open hts hlast hc hopen)
  | false =>
    exact Tree.not_contains_of_before h.placed.spansLeaves hc.contains_start
      (h.before_of_not_mem hts hlast hc (h.not_mem_leaves_of_closed hts hlast hc hopen))

/-- The elements of a rule cover a comment after it iff there are any and the rule ends in an open place. -/
theorem elements_contains_eq :
    (elementsNode limit (nameNode head :: (afterName.read us).1) (afterName.read us).2).span.contains
      c.start = (isLeftOpen limit (withoutComments x.leaves) && !(afterDefiner (line us)).isEmpty) := by
  have hnil := elements_eq_nil_iff limit (flushed_afterName us)
  rw [line_afterName] at hnil
  by_cases hbody : afterDefiner (line us) = []
  · -- without tokens, the elements cover nothing
    rw [elementsNode, Tree.span, hnil.mpr hbody, hbody, List.isEmpty_nil, Bool.not_true, Bool.and_false,
      Bool.eq_false_iff, Ne, Span.contains_iff]
    rintro ⟨hle, hlt⟩
    exact absurd hlt (Nat.not_lt_of_le hle)
  · have hspan := spansLeaves_elementsNode (nameNode head :: (afterName.read us).1)
      fun hempty => hbody (hnil.mp hempty)
    rw [List.isEmpty_eq_false_iff.mpr hbody, Bool.not_false, Bool.and_true]
    cases hopen : isLeftOpen limit (withoutComments x.leaves) with
    | true =>
      -- the comment comes after the last token, which is in the elements
      have hsorted := h.sorted_leaves hts
      have hmem := h.mem_leaves_of_open hts hlast hc hopen
      rw [h.leaves_eq] at hsorted hmem
      obtain ⟨-, helements, hbefore⟩ := List.pairwise_append.mp hsorted
      refine Tree.contains_of_mem hspan hc.contains_start helements ?_
      exact (List.mem_append.mp hmem).resolve_left fun hfront =>
        hc.not_before (hbefore c hfront last (h.last_mem_elements hbody hlast))
    | false =>
      have hbefore := h.before_of_not_mem hts hlast hc (h.not_mem_leaves_of_closed hts hlast hc hopen)
      refine Tree.not_contains_of_before hspan hc.contains_start fun v hv => hbefore v ?_
      rw [h.leaves_eq]
      exact List.mem_append_right _ hv

end

/-- A comment at the end of a rule comes after the last token other than comments. -/
theorem trails_of_getLast? {source : Text} (hts : ts = significant source) {last c : Token}
    (hlast : (withoutComments x.leaves).getLast? = some last) (hc : c.isComment = true)
    (hend : x.leaves.getLast? = some c) : c.Trails source last := by
  obtain ⟨hmemLast, hnot⟩ := List.mem_filter.mp (List.mem_of_getLast? hlast)
  have hmem := List.mem_of_getLast? hend
  have hsig := (h.mem_significant_iff hts).mpr (Or.inr (Or.inl hmem))
  refine ⟨List.mem_of_mem_filter hsig, hc, ?_, fun u hscan husig hucomment _ hle => ?_⟩
  · rcases before_or_eq_of_getLast? (h.sorted_leaves hts) hend hmemLast with hbefore | rfl
    · exact hbefore.2
    · rw [hc] at hnot
      exact absurd hnot (by decide)
  · -- a token that starts after the last one of the rule is not in the rule nor before it
    have hlt : last.start < last.span.stop :=
      start_lt_stop ((h.mem_significant_iff hts).mpr (Or.inr (Or.inl hmemLast)))
    have hnotBefore : ¬u.Before last := by
      rintro ⟨-, hstop⟩
      have hstart : u.start ≤ u.span.stop := Nat.le_add_right _ _
      omega
    rcases (h.mem_significant_iff hts).mp (List.mem_filter.mpr ⟨hscan, husig⟩) with hu | hu | hu
    · exact absurd (h.before_leaves hts hu hmemLast) hnotBefore
    · have hurun : u ∈ withoutComments x.leaves := List.mem_filter.mpr ⟨hu, by rw [hucomment]; rfl⟩
      rcases before_or_eq_of_getLast? ((h.sorted_leaves hts).filter _) hlast hurun with hbefore | rfl
      · exact absurd hbefore hnotBefore
      · exact absurd hlt (Nat.not_lt_of_le hle)
    · obtain ⟨hpos, hstop⟩ := h.before_rest hts hmem hu
      omega

/-- A rule ends with its last token other than comments iff it does not end in an open place or no comment
follows. -/
theorem span_stop_iff {source : Text} (hts : ts = significant source) {last : Token}
    (hlast : (withoutComments x.leaves).getLast? = some last) :
    x.span.stop = last.span.stop ↔
      isLeftOpen limit (withoutComments x.leaves) = false ∨ ∀ c : Token, ¬c.Trails source last := by
  obtain ⟨first, final, -, hfinal, hspan⟩ := h.placed.spansLeaves
  constructor
  · intro hstop
    by_contra hnot
    rw [not_or, Bool.not_eq_false, not_forall] at hnot
    obtain ⟨hopen, c, hc⟩ := hnot
    have hc := not_not.mp hc
    have hcontains := h.contains_eq hts hlast hc
    rw [hopen, Span.contains_iff, hstop] at hcontains
    exact absurd hcontains.2 (Nat.not_lt_of_le hc.after)
  · intro hcases
    -- the last token of the rule is no comment, or it would be one that follows
    have heq : x.leaves.getLast? = some last := by
      rcases hcases with hclosed | hnone
      · exact h.getLast?_leaves hclosed hlast
      · cases hc : final.isComment with
        | false => rw [hfinal, ← getLast?_withoutComments hfinal hc, hlast]
        | true => exact absurd (h.trails_of_getLast? hts hlast hc hfinal) (hnone final)
    rw [hspan, Option.some.inj (hfinal.symm.trans heq)]

end RuleAt

end Grammar

/-- Comments after rules, exactly.  Take a rule below the root, its last token other than comments and its elements,
whose text is what is shown of the rule if it is defined; the outline has the span of the rule.  The rule ends
with that last token iff it does not end in an open place or no comment follows.  A comment that follows stands
below the root iff the rule does not end in an open place, and iff the rule does not cover it.  The elements cover
it iff the rule ends in an open place and has a token after its head and what defines it. -/
theorem trailing_comments_exact (document : String) (limit : Nat) (source : Text) (rule : Tree)
    (hrule : rule ∈ (parse limit source).root.children) (hkind : rule.kind = .rule) :
    let index := Index.ofTree document (parse limit source)
    let run := rule.leaves.filter (!·.isComment)
    ∃ last elements, run.getLast? = some last ∧
      rule.children.find? (·.kind == .elements) = some elements ∧
      (∀ d ∈ index.definitions, d.rule? = some rule →
        ⟨d.name, rule.span, d.head.node.span⟩ ∈ index.symbols ∧
          index.bodyOf d = String.ofList (source.slice elements.span).trim) ∧
      (rule.span.stop = last.span.stop ↔
        isLeftOpen limit run = false ∨ ∀ c : Token, ¬c.Trails source last) ∧
      ∀ c : Token, c.Trails source last →
        (.leaf c ∈ (parse limit source).root.children ↔ isLeftOpen limit run = false) ∧
          rule.span.contains c.start = isLeftOpen limit run ∧
          elements.span.contains c.start =
            (isLeftOpen limit run && !(Token.afterDefiner run.tail).isEmpty) := by
  intro index run
  obtain ⟨before, head, us, h⟩ := Grammar.exists_ruleAt hrule hkind
  have hrun : run = head :: Reader.line us := h.withoutComments_leaves
  obtain ⟨last, hlast⟩ : ∃ last, run.getLast? = some last := by
    rw [hrun]
    exact ⟨_, List.getLast?_eq_some_getLast (List.cons_ne_nil _ _)⟩
  refine ⟨last, _, hlast, h.find?_elements, fun d hd hdrule => ⟨?_, ?_⟩, h.span_stop_iff rfl hlast,
    fun c hc => ⟨?_, h.contains_eq rfl hlast hc, ?_⟩⟩
  · refine List.mem_map.mpr ⟨d, hd, ?_⟩
    rw [hdrule]
    rfl
  · rw [Index.bodyOf, hdrule, Option.bind_some, h.find?_elements]
    rfl
  · rw [← Bool.not_eq_true]
    exact (h.mem_trees_iff rfl hlast hc).trans (not_congr (h.mem_leaves_iff rfl hlast hc))
  · rw [hrun, List.tail_cons, ← hrun]
    exact h.elements_contains_eq rfl hlast hc

/-- A rule that ends with a slash has taken the comment about the next rule: it is not below the root, and the
span of the rule and its elements cover it. -/
theorem trailing_comments_exact_after_slash :
    let source : Text := "a = b /\n; about c\nc = \"x\"".toList
    let slash : Token := ⟨.slash, "/".toList, 6, false⟩
    let c : Token := ⟨.comment, "; about c".toList, 8, true⟩
    c.Trails source slash ∧ ∃ rule ∈ (parse 1 source).root.children, rule.kind = .rule ∧
      (rule.leaves.filter (!·.isComment)).getLast? = some slash ∧
      rule.span.stop ≠ slash.span.stop ∧ .leaf c ∉ (parse 1 source).root.children ∧
      rule.span.contains 8 = true ∧
      ∃ elements, rule.children.find? (·.kind == .elements) = some elements ∧
        elements.span.contains 8 = true := by
  intro source slash c
  have htrails : c.Trails source slash := by constructor <;> decide +kernel
  have hfirst : (parse 1 source).root.children.head?.map
      (fun rule => (rule.kind, (rule.leaves.filter (!·.isComment)))) =
        some (.rule, [⟨.identifier, "a".toList, 0, true⟩, ⟨.equals, "=".toList, 2, false⟩,
          ⟨.identifier, "b".toList, 4, false⟩, slash]) := by decide +kernel
  obtain ⟨rule, hhead, hboth⟩ := Option.map_eq_some_iff.mp hfirst
  injection hboth with hkind hrun
  have hmem := List.mem_of_head? hhead
  obtain ⟨last, elements, hlast, helements, -, hstop, hcomments⟩ :=
    trailing_comments_exact "grammar" 1 source rule hmem hkind
  have hopen : isLeftOpen 1 (rule.leaves.filter (!·.isComment)) = true := by
    rw [hrun]
    decide
  have hslash : last = slash := by
    rw [hrun] at hlast
    exact (Option.some.inj hlast).symm
  rw [hslash] at hlast hstop hcomments
  obtain ⟨hchild, hcovers, hbody⟩ := hcomments c htrails
  refine ⟨htrails, rule, hmem, hkind, hlast, fun hends => ?_, fun hleaf => ?_, ?_, elements, helements, ?_⟩
  · rcases hstop.mp hends with hclosed | hnone
    · rw [hopen] at hclosed
      exact absurd hclosed (by decide)
    · exact hnone c htrails
  · rw [hchild, hopen] at hleaf
    exact absurd hleaf (by decide)
  · rw [← hopen, ← hcovers]
  · rw [hbody, hopen, hrun]
    decide

-- a group that is closed and one that is not, an opener at the nesting limit, and no elements
example : ["a = (b)", "a = (", "a = ((", "a ="].map (isLeftOpen 1 <| Token.significant ·.toList) =
    [false, true, false, true] := by decide +kernel

/-- The comment about a rule is in the rule before it, which ends with a slash: not every rule ends with its last
token other than comments, and not every comment after a rule stands outside of it. -/
theorem comment_taken_by_open_rule :
    ¬∀ (limit : Nat) (source : Text), ∀ rule ∈ (parse limit source).root.children, rule.kind = .rule →
      ∀ last, (rule.leaves.filter (!·.isComment)).getLast? = some last →
        rule.span.stop = last.span.stop ∧
          ∀ c : Token, c.Trails source last → .leaf c ∈ (parse limit source).root.children ∧
            rule.span.contains c.start = false := by
  intro houtside
  have hfirst : (parse 1 "a = b /\n; about c\nc = \"x\"\n".toList).root.children.head?.map
      (fun rule => (rule.kind, (rule.leaves.filter (!·.isComment)).getLast?, rule.span)) =
        some (.rule, some ⟨.slash, "/".toList, 6, false⟩, ⟨0, 17⟩) := by decide +kernel
  obtain ⟨rule, hhead, hall⟩ := Option.map_eq_some_iff.mp hfirst
  injection hall with hkind hrest
  injection hrest with hlast hspan
  have hstop := (houtside 1 _ rule (List.mem_of_head? hhead) hkind _ hlast).1
  rw [hspan] at hstop
  exact absurd hstop (by decide)

end Abnf
