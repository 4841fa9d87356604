/-
Trees keep every token.

A grammar is read to its end, whatever it holds: the leaves of its tree in pre-order are the tokens of
the text other than blanks, line breaks and the end (`leaves_root`, `filterMap_token?_sites`).  What no
leaf covers is a blank or a line break (`leaves_are_tokens`).
-/
import Abnf.Proofs.Reading
import Abnf.Proofs.Scan
import Abnf.Syntax.Site

namespace Abnf

namespace Grammar

open Reader

/-- A list of tokens is read to its end. -/
theorem ruleList_rest (limit : Nat) (ts : List Token) : ((ruleList limit).read ts).2 = [] := by
  -- the loop stops where only comments are left, and these are taken last
  have hstop := readParts_stop hasNext (entry limit) (entry_consumes limit) ts
  simpa [hasNext, next?, ruleList, seq, many, comments] using hstop

theorem leavesAll_ruleList (limit : Nat) (ts : List Token) :
    Tree.leavesAll ((ruleList limit).read ts).1 = ts := by
  have hkeeps := (ruleList limit).keeps ts
  rwa [ruleList_rest, List.append_nil] at hkeeps

end Grammar

/-- The leaves of a tree are the tokens of its text that are part of trees. -/
theorem leaves_root (limit : Nat) (source : Text) :
    (parse limit source).root.leaves = Token.significant source :=
  Grammar.leavesAll_ruleList limit _

/-! ### Leaves in pre-order -/

/-- The token at a site, if the site is a leaf. -/
def Site.token? (s : Site) : Option Token :=
  match s.node with
  | .leaf token => some token
  | .node _ _ _ => none

namespace Site

theorem node_of_token? {s : Site} {t : Token} (h : s.token? = some t) : s.node = .leaf t := by
  rw [token?] at h
  split at h
  · rename_i u hu
    rw [hu, Option.some.inj h]
  · exact absurd h (by simp)

mutual

theorem filterMap_token?_preorder (id : Nat) (ancestors : List (Nat × Tree)) (t : Tree) :
    (preorder id ancestors t).filterMap token? = t.leaves := by
  cases t with
  | leaf token => rfl
  | node kind span children =>
    rw [preorder, List.filterMap_cons]
    exact filterMap_token?_preorderAll _ _ children

/-- Pre-order meets the leaves of a tree from left to right. -/
theorem filterMap_token?_preorderAll (id : Nat) (ancestors : List (Nat × Tree)) (ts : List Tree) :
    (preorderAll id ancestors ts).filterMap token? = Tree.leavesAll ts := by
  cases ts with
  | nil => rfl
  | cons t ts =>
    rw [preorderAll, List.filterMap_append, filterMap_token?_preorder,
      filterMap_token?_preorderAll, Tree.leavesAll_cons]

end

end Site

theorem filterMap_token?_sites (limit : Nat) (source : Text) :
    (parse limit source).sites.filterMap Site.token? = Token.significant source := by
  rw [SyntaxTree.sites, Site.filterMap_token?_preorder, leaves_root]

/-- The token of a leaf is one of the text. -/
theorem mem_scan_of_token? {limit : Nat} {source : Text} {s : Site}
    (hs : s ∈ (parse limit source).sites) {t : Token} (h : s.token? = some t) :
    t ∈ Token.scan source := by
  have hmem : t ∈ Token.significant source := by
    rw [← filterMap_token?_sites limit source]
    exact List.mem_filterMap.mpr ⟨s, hs, h⟩
  exact (List.mem_filter.mp hmem).1

/-- Reading loses and invents nothing: the leaves of a tree in pre-order are the tokens of the text
other than blanks, line breaks and the end, each with the text that its span covers, and a byte that
belongs to no leaf is that of a space, a tab, a CR or an LF. -/
theorem leaves_are_tokens (limit : Nat) (source : Text) :
    (parse limit source).sites.filterMap Site.token? =
        (Token.scan source).filter (fun t =>
          t.kind != .whitespace && t.kind != .newline && t.kind != .endOfText) ∧
      (∀ t ∈ (parse limit source).sites.filterMap Site.token?, source.slice t.span = t.text) ∧
      ∀ offset, offset < source.byteLength →
        (∃ t ∈ (parse limit source).sites.filterMap Site.token?, t.span.contains offset = true) ∨
          source.charAt? offset ∈ [some ' ', some '\t', some '\r', some '\n'] := by
  rw [filterMap_token?_sites]
  refine ⟨rfl, ?_, ?_⟩
  · intro t ht
    exact Token.slice_span (List.mem_filter.mp ht).1
  · intro offset hoffset
    obtain ⟨t, ht, c, hc, hchar, hspan⟩ := Token.exists_mem_scan_of_lt hoffset
    cases hsig : t.isSignificant with
    | true => exact Or.inl ⟨t, List.mem_filter.mpr ⟨ht, hsig⟩, hspan⟩
    | false =>
      have hlayout := Token.isLayout_of_mem_text ht hsig hc
      simp only [Text.isLayout, Bool.or_eq_true, beq_iff_eq] at hlayout
      refine Or.inr ?_
      rw [hchar]
      rcases hlayout with ((rfl | rfl) | rfl) | rfl <;> simp

/-- The line break between a comment and a stray bracket is covered by no leaf. -/
theorem leaves_are_tokens_stray_bracket :
    6 < Text.byteLength "a = ;b\n )".toList ∧
      ((∃ t ∈ (parse 1 "a = ;b\n )".toList).sites.filterMap Site.token?,
          t.span.contains 6 = true) ∨
        Text.charAt? "a = ;b\n )".toList 6 ∈ [some ' ', some '\t', some '\r', some '\n']) := by
  have h : 6 < Text.byteLength "a = ;b\n )".toList := by decide
  exact ⟨h, (leaves_are_tokens 1 "a = ;b\n )".toList).2.2 6 h⟩

end Abnf
