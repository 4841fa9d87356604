/-
Rules in trees.

A rule stands below the root and nowhere else (`rule_mem_root`).  It is what the grammar reads from a name in
the first column on: `Grammar.RuleAt` cuts a list of tokens into those of the trees before the rule, the head of
the rule and the tokens after it.  From this cut can be told what the rule holds.  Its tokens other than comments
are its head and the rest of the run of its head (`RuleAt.withoutComments_leaves`), and it starts where its head
does (`RuleAt.span_start`).  What the rule leaves does not go on with it (`RuleAt.inRule_rest`).
-/
import Abnf.Proofs.Occurrence
import Abnf.Proofs.Parallel
import Abnf.Proofs.Segmentation
import Abnf.Proofs.Sites
import Abnf.Proofs.Spans

namespace Abnf

/-- Each of some tokens that come one after the other is the last one or comes before it. -/
theorem Token.before_or_eq_of_getLast? {ts : List Token} {t last : Token} (hsorted : ts.Pairwise Before)
    (hlast : ts.getLast? = some last) (ht : t ∈ ts) : t.Before last ∨ t = last := by
  obtain ⟨front, rfl⟩ := List.getLast?_eq_some_iff.mp hlast
  rcases List.mem_append.mp ht with ht | ht
  · exact Or.inl ((List.pairwise_append.mp hsorted).2.2 t ht last (List.mem_singleton.mpr rfl))
  · exact Or.inr (List.mem_singleton.mp ht)

namespace Grammar

open Reader Token

/-- A rule among the trees of a list of tokens, with the trees before it, its head and the tokens after its
head. -/
structure RuleAt (limit : Nat) (ts : List Token) (before : List Tree) (head : Token) (us : List Token)
    (x : Tree) : Prop where
  tokens : ts = Tree.leavesAll before ++ head :: us
  isHead : head.isHead = true
  read : ((rule limit).read (head :: us)).1 = [x]
  trees : ((ruleList limit).read ts).1 =
    before ++ x :: ((ruleList limit).read ((rule limit).read (head :: us)).2).1

/-- An entry that starts with a head is a rule after comments. -/
theorem entry_of_isHead (limit : Nat) {ts us : List Token} {t : Token}
    (hus : (comments.read ts).2 = t :: us) (hc : t.isComment = false) (hhead : t.isHead = true) :
    (entry limit).read ts =
      ((comments.read ts).1 ++ ((rule limit).read (t :: us)).1, ((rule limit).read (t :: us)).2) := by
  rw [entry, seq_read, hus, choose_pos (by rw [isAtRule_cons hc, hhead])]

/-- An entry that does not start with a head holds no rule. -/
theorem kind_of_mem_entry {limit : Nat} {ts us : List Token} {t : Token}
    (hus : (comments.read ts).2 = t :: us) (hc : t.isComment = false) (hhead : t.isHead = false) {x : Tree}
    (hx : x ∈ ((entry limit).read ts).1) : x.kind = .comment ∨ x.kind = .error := by
  rw [entry, seq_read, hus, choose_neg (by rw [isAtRule_cons hc, hhead]), List.mem_append] at hx
  rcases hx with hx | hx
  · obtain ⟨c, rfl, hcomment⟩ := mem_comments hx
    exact Or.inl (kind_of_isComment hcomment)
  · obtain ⟨trees, rfl, -⟩ := mem_junk hc hx
    exact Or.inr rfl

/-- Every rule that is made of a list of tokens can be found in the list. -/
theorem exists_ruleAt {limit : Nat} {ts : List Token} {x : Tree}
    (hx : x ∈ ((ruleList limit).read ts).1) (hkind : x.kind = .rule) :
    ∃ before head us, RuleAt limit ts before head us x := by
  have hcomment : ∀ ts, x ∉ (comments.read ts).1 := by
    intro ts hmem
    obtain ⟨c, rfl, hc⟩ := mem_comments hmem
    rw [Tree.kind, kind_of_isComment hc] at hkind
    exact absurd hkind (by decide)
  -- on the number of tokens: an entry takes some, and the rule is this entry or among the later ones
  induction hlength : ts.length using Nat.strong_induction_on generalizing ts with
  | _ n ih =>
    cases hnext : hasNext ts with
    | false =>
      rw [ruleList_of_not_hasNext limit hnext] at hx
      exact absurd hx (hcomment ts)
    | true =>
      obtain ⟨t, ht⟩ := Option.isSome_iff_exists.mp hnext
      obtain ⟨us, hus⟩ := comments_of_next? ht
      have hc := isComment_of_next? ht
      have hall := ruleList_of_hasNext limit hnext
      rw [hall, List.mem_append] at hx
      by_cases hlater : x ∈ ((ruleList limit).read ((entry limit).read ts).2).1
      · have hlt := entry_consumes limit ts hnext
        obtain ⟨before, head, vs, hrule⟩ := ih _ (hlength ▸ hlt) hlater rfl
        refine ⟨((entry limit).read ts).1 ++ before, head, vs, ?_, hrule.isHead, hrule.read, ?_⟩
        · rw [Tree.leavesAll_append, List.append_assoc, ← hrule.tokens, (entry limit).keeps]
        · rw [hall, hrule.trees, List.append_assoc]
      · have hx := hx.resolve_right hlater
        cases hhead : t.isHead with
        | true =>
          have hentry := entry_of_isHead limit hus hc hhead
          have hread : ((rule limit).read (t :: us)).1 = [x] := by
            rw [hentry, List.mem_append, rule_read limit hc, List.mem_singleton] at hx
            rw [rule_read limit hc, hx.resolve_left (hcomment ts)]
          refine ⟨(comments.read ts).1, t, us, ?_, hhead, hread, ?_⟩
          · rw [← hus, comments.keeps]
          · rw [hall, hentry, hread, List.append_assoc, List.singleton_append]
        | false =>
          rcases kind_of_mem_entry hus hc hhead hx with hk | hk <;> rw [hk] at hkind <;>
            exact absurd hkind (by decide)

namespace RuleAt

variable {limit : Nat} {ts us : List Token} {before : List Tree} {head : Token} {x : Tree}
  (h : RuleAt limit ts before head us x)
include h

theorem isComment : head.isComment = false := by
  rw [Token.isComment, kind_of_isHead h.isHead]
  rfl

theorem eq_branch :
    x = .branch .rule (nameNode head :: ((afterName.read us).1 ++
      [elementsNode limit (nameNode head :: (afterName.read us).1) (afterName.read us).2])) := by
  have hread := h.read
  rw [rule_read limit h.isComment] at hread
  exact (List.singleton_inj.mp hread).symm

/-- The tokens of a rule and those that it leaves are its head and the tokens after its head. -/
theorem leaves_append : x.leaves ++ ((rule limit).read (head :: us)).2 = head :: us := by
  have hkeeps := (rule limit).keeps (head :: us)
  rwa [h.read, Tree.leavesAll_cons, Tree.leavesAll_nil, List.append_nil] at hkeeps

/-- The tokens other than comments are those of the run of the head. -/
theorem withoutComments_leaves : withoutComments x.leaves = head :: line us := by
  have hsplit := congrArg withoutComments h.leaves_append
  have hrun : withoutComments (head :: us) = head :: line us ++ later us := by
    rw [withoutComments_cons h.isComment, line, later, List.cons_append, List.takeWhile_append_dropWhile]
  rw [withoutComments_append, rule_rest limit h.isComment, hrun] at hsplit
  exact List.append_cancel_right hsplit

/-- What a rule leaves does not go on with it. -/
theorem inRule_rest : inRule ((rule limit).read (head :: us)).2 = false := by
  rw [rule_read limit h.isComment]
  exact (elements_rest limit _).1

theorem placed : x.Placed :=
  rule_placed limit h.isComment (by rw [h.read]; exact List.mem_singleton.mpr rfl)

theorem tokens_eq : ts = Tree.leavesAll before ++ (x.leaves ++ ((rule limit).read (head :: us)).2) := by
  rw [h.leaves_append]
  exact h.tokens

/-- A rule starts where its head does. -/
theorem span_start : x.span.start = head.start := by
  obtain ⟨first, last, hfirst, -, hspan⟩ := h.placed.spansLeaves
  have hhead : x.leaves.head? = some head := by rw [h.eq_branch]; rfl
  rw [hspan, Option.some.inj (hfirst.symm.trans hhead)]

section

variable {source : Text} (hts : ts = significant source)
include hts

theorem mem_significant_iff {t : Token} : t ∈ significant source ↔
    t ∈ Tree.leavesAll before ∨ t ∈ x.leaves ∨ t ∈ ((rule limit).read (head :: us)).2 := by
  conv_lhs => rw [← hts, h.tokens_eq]
  rw [List.mem_append, List.mem_append]

/-- The tokens before a rule, those of the rule and those after it stand one after the other. -/
theorem sorted : (Tree.leavesAll before ++ (x.leaves ++ ((rule limit).read (head :: us)).2)).Pairwise
    Before := by
  rw [← h.tokens_eq, hts]
  exact pairwise_significant source

theorem sorted_leaves : x.leaves.Pairwise Before :=
  (List.pairwise_append.mp (List.pairwise_append.mp (h.sorted hts)).2.1).1

theorem before_leaves {t u : Token} (ht : t ∈ Tree.leavesAll before) (hu : u ∈ x.leaves) : t.Before u :=
  (List.pairwise_append.mp (h.sorted hts)).2.2 t ht u (List.mem_append_left _ hu)

theorem before_rest {t u : Token} (ht : t ∈ x.leaves) (hu : u ∈ ((rule limit).read (head :: us)).2) :
    t.Before u :=
  (List.pairwise_append.mp (List.pairwise_append.mp (h.sorted hts)).2.1).2.2 t ht u hu

end

end RuleAt

end Grammar

/-- A rule stands below the root. -/
theorem rule_mem_root {limit : Nat} {source : Text} {s : Site} (hs : s ∈ (parse limit source).sites)
    (hkind : s.node.kind = .rule) : s.node ∈ (parse limit source).root.children := by
  rcases List.mem_cons.mp hs with rfl | hs
  · exact absurd (show Kind.sourceFile = .rule from hkind) (by decide)
  · obtain ⟨x, hx, id, hs⟩ := Site.mem_preorderAll hs
    have hleaves : ∀ u ∈ x.leaves, u.kind.isLexical = true := by
      intro u hu
      have hmem : u ∈ Token.significant source := by
        rw [← leaves_root limit source]
        exact Tree.mem_leavesAll.mpr ⟨x, hx, hu⟩
      exact Token.lexical_of_mem_significant hmem
    cases Grammar.ruleList_entry limit hx with
    | other hreferring => exact absurd hkind (Site.kind_ne_rule_of_referring hreferring hleaves hs)
    | @rule head span ts hhead hline hts =>
      rcases List.mem_cons.mp hs with rfl | hs
      · exact hx
      · -- below a rule there are its head and references
        obtain ⟨y, hy, id', hs⟩ := Site.mem_preorderAll hs
        rcases List.mem_cons.mp hy with rfl | hmem
        · exact absurd hkind (Site.kind_ne_rule_of_nameNode hhead hs)
        · refine absurd hkind (Site.kind_ne_rule_of_referring (hts y hmem).1 (fun u hu => ?_) hs)
          exact hleaves u (Tree.mem_leavesAll.mpr ⟨y, hy, hu⟩)

end Abnf
