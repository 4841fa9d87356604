/-
What the nodes of a tree span.

A node spans from its first token to its last one (`Tree.Placed.spansLeaves`), and the tokens of a text
stand one after the other.  So a node contains every offset in one of its tokens (`contains_of_mem`),
and none in a token that comes after it (`not_contains_of_before`).

Two nodes are given their spans in another way: the root, which spans the whole text, and the body of a
rule that has none, which is empty and stands where the rule ends.  `Tree.Solid` describes the trees
without such a node, and `Tree.Placed` those below the root.
-/
import Abnf.Proofs.Lossless

namespace Abnf

/-- The tokens of a tree come one after the other. -/
theorem Token.pairwise_significant (source : Text) : (significant source).Pairwise Before :=
  (pairwise_scanFrom 0 true source).filter _

namespace Tree

/-- Trees in which every node has children and spans them. -/
inductive Solid : Tree → Prop
  | leaf (t : Token) : Solid (leaf t)
  | branch {kind : Kind} {ts : List Tree} : ts ≠ [] → (∀ t ∈ ts, Solid t) → Solid (branch kind ts)

/-- Trees that stand below the root: solid ones, and rules whose body is empty and stands where the
rule ends. -/
inductive Placed : Tree → Prop
  | solid {t : Tree} : Solid t → Placed t
  | rule {ts : List Tree} : ts ≠ [] → (∀ t ∈ ts, Solid t) →
      Placed (branch .rule (ts ++ [node .elements (.empty (spanOf ts 0).stop) []]))

theorem Solid.nameNode (t : Token) : Solid (Grammar.nameNode t) := by
  refine .branch (List.cons_ne_nil _ _) fun x hx => ?_
  rw [List.mem_singleton.mp hx]
  exact .leaf t

/-- Whether a tree spans from its first token to its last one. -/
def SpansLeaves (x : Tree) : Prop :=
  ∃ first last, x.leaves.head? = some first ∧ x.leaves.getLast? = some last ∧
    x.span = ⟨first.start, last.span.stop⟩

/-- Trees that span their tokens, side by side, span theirs. -/
theorem spansLeaves_branch (kind : Kind) {ts : List Tree} (hne : ts ≠ [])
    (h : ∀ t ∈ ts, t.SpansLeaves) : (branch kind ts).SpansLeaves := by
  obtain ⟨first, l, hfirst, -, hstart⟩ := h _ (List.head_mem hne)
  obtain ⟨f, last, -, hlast, hstop⟩ := h _ (List.getLast_mem hne)
  refine ⟨first, last, ?_, ?_, ?_⟩
  · rw [leaves_branch, ← List.cons_head_tail hne, leavesAll_cons, List.head?_append, hfirst]
    rfl
  · rw [leaves_branch, ← List.dropLast_concat_getLast hne, leavesAll_append, leavesAll_cons,
      leavesAll_nil, List.append_nil, List.getLast?_append, hlast]
    rfl
  · show spanOf ts 0 = _
    rw [spanOf_eq hne, hstart, hstop]

theorem Solid.spansLeaves {x : Tree} (h : x.Solid) : x.SpansLeaves := by
  induction h with
  | leaf t => exact ⟨t, t, rfl, rfl, rfl⟩
  | branch hne _ ih => exact spansLeaves_branch _ hne ih

/-- The empty body of a rule adds nothing to what the rule spans. -/
theorem Placed.spansLeaves {x : Tree} (h : x.Placed) : x.SpansLeaves := by
  cases h with
  | solid h => exact h.spansLeaves
  | @rule ts hne h =>
    obtain ⟨first, last, hfirst, hlast, hspan⟩ :=
      spansLeaves_branch .rule hne fun t ht => (h t ht).spansLeaves
    have hleaves : leavesAll (ts ++ [node .elements (.empty (spanOf ts 0).stop) []]) =
        leavesAll ts := by simp
    have hsame : spanOf (ts ++ [node .elements (.empty (spanOf ts 0).stop) []]) 0 = spanOf ts 0 := by
      rw [spanOf_eq (List.append_ne_nil_of_left_ne_nil hne _), List.head_append_of_ne_nil hne,
        List.getLast_concat, spanOf_eq hne]
      rfl
    exact ⟨first, last, by rw [leaves_branch, hleaves]; exact hfirst,
      by rw [leaves_branch, hleaves]; exact hlast, hsame.trans hspan⟩

section

variable {x : Tree} {u : Token} {offset : Nat} (hspan : x.SpansLeaves)
  (hu : u.span.contains offset = true)
include hspan hu

/-- A tree contains what one of its tokens contains. -/
theorem contains_of_mem (hsorted : x.leaves.Pairwise Token.Before) (hmem : u ∈ x.leaves) :
    x.span.contains offset = true := by
  obtain ⟨first, last, hfirst, hlast, hspan⟩ := hspan
  obtain ⟨more, hmore⟩ : ∃ more, x.leaves = first :: more := List.head?_eq_some_iff.mp hfirst
  obtain ⟨front, hfront⟩ : ∃ front, x.leaves = front ++ [last] := List.getLast?_eq_some_iff.mp hlast
  have hstart : first.start ≤ u.start := by
    rw [hmore] at hsorted hmem
    rcases List.mem_cons.mp hmem with rfl | hmem
    · exact Nat.le_refl _
    · have hbefore := (List.pairwise_cons.mp hsorted).1 u hmem
      exact Nat.le_of_lt (Nat.lt_of_lt_of_le hbefore.1 hbefore.2)
  have hstop : u.span.stop ≤ last.span.stop := by
    rw [hfront] at hsorted hmem
    rcases List.mem_append.mp hmem with hmem | hmem
    · have hbefore := (List.pairwise_append.mp hsorted).2.2 u hmem last (List.mem_singleton.mpr rfl)
      exact Nat.le_trans hbefore.2 (Nat.le_add_right _ _)
    · exact Nat.le_of_eq (by rw [List.mem_singleton.mp hmem])
  rw [Span.contains_iff] at hu ⊢
  rw [hspan]
  exact ⟨Nat.le_trans hstart hu.1, Nat.lt_of_lt_of_le hu.2 hstop⟩

/-- A tree does not reach a token that comes after all of its tokens. -/
theorem not_contains_of_before (hbefore : ∀ v ∈ x.leaves, v.Before u) :
    x.span.contains offset = false := by
  obtain ⟨first, last, -, hlast, hspan⟩ := hspan
  have hstop := (hbefore last (List.mem_of_getLast? hlast)).2
  rw [Span.contains_iff] at hu
  rw [Bool.eq_false_iff, Ne, Span.contains_iff, hspan]
  rintro ⟨-, hlt⟩
  have hstart : u.start ≤ offset := hu.1
  exact absurd hlt (by show ¬offset < last.span.stop; omega)

end

end Tree

namespace Grammar

open Reader

/-- Inside of a rule every node has children. -/
theorem kept_solid (limit : Nat) : Kept limit fun _ _ trees _ => ∀ t ∈ trees, t.Solid where
  refl := by simp
  append := by
    intro n ts us vs trees trees' h h' t ht
    rcases List.mem_append.mp ht with ht | ht
    · exact h t ht
    · exact h' t ht
  skip := by
    intro n ts x hx
    obtain ⟨t, rfl, -⟩ := mem_comments hx
    exact .leaf t
  name := by
    intro n t us _ _ x hx
    rw [List.mem_singleton.mp hx]
    exact .nameNode t
  plain := by
    intro n t us _ _ x hx
    rw [List.mem_singleton.mp hx]
    exact .leaf t
  wrap := by
    intro n kind ts us trees _ hne h x hx
    rw [List.mem_singleton.mp hx]
    exact .branch hne h
  bracket := by
    intro n kind opener close t us trees vs _ _ _ h _ x hx
    rw [List.mem_singleton.mp hx]
    refine .branch (List.cons_ne_nil _ _) fun y hy => ?_
    rcases List.mem_cons.mp hy with rfl | hy
    · exact .leaf t
    · rcases List.mem_append.mp hy with hy | hy
      · exact h y hy
      · obtain ⟨c, rfl, -⟩ := mem_ifAt hy
        exact .leaf c
  atLimit := by
    intro kind opener close t us _ _ _ x hx
    rw [List.mem_singleton.mp hx]
    refine .branch (List.cons_ne_nil _ _) fun y hy => ?_
    rw [List.mem_singleton.mp hy]
    exact .leaf t
  stray := by
    intro t us _ _ _ _ _ _ x hx
    rw [List.mem_singleton.mp hx]
    refine .branch (List.cons_ne_nil _ _) fun y hy => ?_
    rw [List.mem_singleton.mp hy]
    exact .leaf t

theorem afterName_solid {ts : List Token} {x : Tree} (h : x ∈ (afterName.read ts).1) : x.Solid := by
  rcases mem_afterName h with ⟨t, rfl, -⟩ | ⟨t, rfl, -⟩
  · exact .leaf t
  · refine .branch (List.cons_ne_nil _ _) fun y hy => ?_
    rw [List.mem_singleton.mp hy]
    exact .leaf t

/-- A rule with a body is solid, and one without a body ends where its head does. -/
theorem rule_placed (limit : Nat) {t : Token} (hc : t.isComment = false) {us : List Token} {x : Tree}
    (hx : x ∈ ((rule limit).read (t :: us)).1) : x.Placed := by
  rw [rule_read limit hc, List.mem_singleton] at hx
  have hhead : ∀ y ∈ nameNode t :: (afterName.read us).1, y.Solid := by
    intro y hy
    rcases List.mem_cons.mp hy with rfl | hy
    · exact .nameNode t
    · exact afterName_solid hy
  have hbody := (kept_solid limit).elements (afterName.read us).2
  rw [hx, elementsNode, ← List.cons_append]
  by_cases hempty : ((elements limit).read (afterName.read us).2).1 = []
  · rw [hempty]
    exact .rule (List.cons_ne_nil _ _) hhead
  · refine .solid (.branch (List.cons_ne_nil _ _) fun y hy => ?_)
    rcases List.mem_append.mp hy with hy | hy
    · exact hhead y hy
    · rw [List.mem_singleton.mp hy, Tree.spanOf_of_ne_nil hempty _ 0]
      exact .branch hempty hbody

theorem junk_solid {t : Token} (hc : t.isComment = false) {us : List Token} {x : Tree}
    (hx : x ∈ (junk.read (t :: us)).1) : x.Solid := by
  obtain ⟨trees, rfl, hne, htrees⟩ := mem_junk hc hx
  refine .branch hne fun y hy => ?_
  rcases htrees y hy with ⟨c, rfl, -⟩ | ⟨u, -, rfl⟩
  · exact .leaf c
  · split
    · exact .nameNode u
    · exact .leaf u

/-- The trees below the root. -/
theorem ruleList_placed (limit : Nat) {ts : List Token} {x : Tree}
    (hx : x ∈ ((ruleList limit).read ts).1) : x.Placed := by
  rcases mem_ruleList hx with ⟨c, rfl, -⟩ | ⟨t, us, hc, ⟨-, hx⟩ | ⟨-, hx⟩⟩
  · exact .solid (.leaf c)
  · exact rule_placed limit hc hx
  · exact .solid (junk_solid hc hx)

end Grammar

end Abnf
