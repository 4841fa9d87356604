/-
Spans nest.

The nodes of a tree stand in the text as they stand in the tree: the children of a node come one after
the other and inside of the node, and a node reaches from its first child to its last one.  All bounds
are those of tokens, and so between characters of the text.  The root is given the whole text instead,
and a node without children is the body of a rule that has none, which is empty and stands at the end
of the token before it (`spans_nest`).

`Tree.Standing` is what a tree below the root hands down to its children; the rest is told from it.
-/
import Abnf.Proofs.Sites
import Abnf.Proofs.Spans

namespace Abnf

/-! ### Bounds -/

namespace Text

/-- Whether an offset is between two characters of a text, or at one of its ends. -/
def IsBoundary (text : Text) (offset : Nat) : Prop :=
  ∃ before after, text = before ++ after ∧ before.byteLength = offset

theorem IsBoundary.le {text : Text} {offset : Nat} (h : text.IsBoundary offset) :
    offset ≤ text.byteLength := by
  obtain ⟨before, after, rfl, rfl⟩ := h
  rw [byteLength_append]
  omega

theorem isBoundary_zero (text : Text) : text.IsBoundary 0 := ⟨[], text, rfl, rfl⟩

theorem isBoundary_byteLength (text : Text) : text.IsBoundary text.byteLength :=
  ⟨text, [], (List.append_nil text).symm, rfl⟩

end Text

namespace Token

/-- A token starts and stops between characters. -/
theorem isBoundary_of_mem_scan {source : Text} {t : Token} (h : t ∈ scan source) :
    source.IsBoundary t.span.start ∧ source.IsBoundary t.span.stop := by
  obtain ⟨before, after, hsource, hstart⟩ := exists_append_of_mem h
  rw [Nat.zero_add] at hstart
  refine ⟨⟨before, t.text ++ after, hsource, hstart.symm⟩, ?_⟩
  refine ⟨before ++ t.text, after, by rw [hsource, List.append_assoc], ?_⟩
  rw [Text.byteLength_append, ← hstart]
  rfl

theorem isBoundary_of_mem {source : Text} {t : Token} (h : t ∈ significant source) :
    source.IsBoundary t.span.start ∧ source.IsBoundary t.span.stop :=
  isBoundary_of_mem_scan (List.mem_filter.mp h).1

/-- A token of a tree is not empty. -/
theorem start_lt_stop {source : Text} {t : Token} (h : t ∈ significant source) :
    t.span.start < t.span.stop := by
  obtain ⟨hscan, hsig⟩ := List.mem_filter.mp h
  rcases eq_end_or_first_of_mem hscan with ⟨hend, -⟩ | ⟨c, cs, hfirst⟩
  · rw [isSignificant, hend] at hsig
    exact absurd hsig (by decide)
  · have hne : t.text ≠ [] := by
      rw [hfirst]
      exact List.cons_ne_nil _ _
    have hpos := Text.byteLength_pos hne
    show t.start < t.start + t.text.byteLength
    omega

end Token

namespace Tree

/-- Trees that come one after the other. -/
def InOrder (ts : List Tree) : Prop := ts.Pairwise fun a b => a.span.stop ≤ b.span.start

theorem sublist_leavesAll {x : Tree} {ts : List Tree} (h : x ∈ ts) :
    x.leaves.Sublist (leavesAll ts) := by
  induction ts with
  | nil => exact absurd h List.not_mem_nil
  | cons y ts ih =>
    rw [leavesAll_cons]
    rcases List.mem_cons.mp h with rfl | h
    · exact List.sublist_append_left _ _
    · exact (ih h).trans (List.sublist_append_right _ _)

/-- Trees that span their tokens come one after the other if the tokens do. -/
theorem inOrder_of_leaves {ts : List Tree} (h : ∀ t ∈ ts, t.SpansLeaves)
    (hsorted : (leavesAll ts).Pairwise Token.Before) : InOrder ts := by
  induction ts with
  | nil => exact .nil
  | cons x ts ih =>
    rw [leavesAll_cons] at hsorted
    obtain ⟨-, hmore, hbefore⟩ := List.pairwise_append.mp hsorted
    refine List.pairwise_cons.mpr ⟨fun y hy => ?_, ih (fun t ht => h t (List.mem_cons_of_mem _ ht)) hmore⟩
    -- the last token of one tree comes before the first token of the other
    obtain ⟨_, last, -, hlast, hx⟩ := h x List.mem_cons_self
    obtain ⟨first, _, hfirst, -, hspan⟩ := h y (List.mem_cons_of_mem _ hy)
    have hmem : first ∈ leavesAll ts := (sublist_leavesAll hy).subset (List.mem_of_head? hfirst)
    rw [hx, hspan]
    exact (hbefore last (List.mem_of_getLast? hlast) first hmem).2

/-- What is the same for all trees of a text: a tree starts and stops between characters, its children
come one after the other, and it spans them. -/
structure Nested (source : Text) (x : Tree) : Prop where
  start : source.IsBoundary x.span.start
  stop : source.IsBoundary x.span.stop
  forward : x.span.start ≤ x.span.stop
  inOrder : InOrder x.children
  inside : ∀ c ∈ x.children, x.span.start ≤ c.span.start ∧ c.span.stop ≤ x.span.stop

/-! ### Trees below the root -/

/-- Trees of a text below the root: those that stand in it with their tokens, and the empty body of a
rule, which stands where a token stops. -/
inductive Standing (source : Text) : Tree → Prop
  | placed {x : Tree} : x.Placed → x.leaves.Sublist (Token.significant source) → Standing source x
  | empty {t : Token} : t ∈ Token.significant source →
      Standing source (node .elements (.empty t.span.stop) [])

theorem Standing.bounds {source : Text} {x : Tree} (h : Standing source x) :
    source.IsBoundary x.span.start ∧ source.IsBoundary x.span.stop ∧ x.span.start ≤ x.span.stop := by
  cases h with
  | placed hplaced hleaves =>
    obtain ⟨first, last, hfirst, hlast, hspan⟩ := hplaced.spansLeaves
    have hfirst' := Token.isBoundary_of_mem (hleaves.subset (List.mem_of_head? hfirst))
    have hlast' := Token.isBoundary_of_mem (hleaves.subset (List.mem_of_getLast? hlast))
    rw [hspan]
    refine ⟨hfirst'.1, hlast'.2, ?_⟩
    -- the first token does not come after the last one
    obtain ⟨more, hmore⟩ : ∃ more, x.leaves = first :: more := List.head?_eq_some_iff.mp hfirst
    have hsorted := (Token.pairwise_significant source).sublist hleaves
    have hmem := List.mem_of_getLast? hlast
    rw [hmore] at hsorted hmem
    rcases List.mem_cons.mp hmem with rfl | hmem
    · exact Nat.le_add_right _ _
    · obtain ⟨hlt, hle⟩ := (List.pairwise_cons.mp hsorted).1 last hmem
      show first.start ≤ last.start + last.text.byteLength
      omega
  | empty ht =>
    have hstop := (Token.isBoundary_of_mem ht).2
    exact ⟨hstop, hstop, Nat.le_refl _⟩

/-- What stands in a text hands this down to its children. -/
theorem Standing.child {source : Text} {x y : Tree} (h : Standing source x) (hy : y ∈ x.children) :
    Standing source y := by
  cases h with
  | placed hplaced hleaves =>
    cases hplaced with
    | solid hsolid =>
      cases hsolid with
      | leaf t => exact absurd hy List.not_mem_nil
      | branch hne hts =>
        exact .placed (.solid (hts y hy)) ((sublist_leavesAll hy).trans hleaves)
    | @rule ts hne hts =>
      rcases List.mem_append.mp hy with hmem | hmem
      · exact .placed (.solid (hts y hmem)) ((sublist_leavesAll hy).trans hleaves)
      · -- the empty body stands where the last token of the rule stops
        obtain ⟨first, last, -, hlast, hspan⟩ :=
          spansLeaves_branch .rule hne fun t ht => (hts t ht).spansLeaves
        rw [show spanOf ts 0 = _ from hspan] at hmem
        rw [List.mem_singleton.mp hmem]
        refine .empty (hleaves.subset ?_)
        rw [leaves_branch, leavesAll_append]
        exact List.mem_append_left _ (List.mem_of_getLast? hlast)
  | empty ht => exact absurd hy List.not_mem_nil

/-- A node reaches from its first child to its last one, and so around all of them. -/
theorem inside_of_inOrder {ts : List Tree} (hne : ts ≠ []) (hsorted : InOrder ts)
    (hforward : ∀ c ∈ ts, c.span.start ≤ c.span.stop) {c : Tree} (hc : c ∈ ts) :
    (spanOf ts 0).start ≤ c.span.start ∧ c.span.stop ≤ (spanOf ts 0).stop := by
  rw [spanOf_eq hne]
  constructor
  · show (ts.head hne).span.start ≤ c.span.start
    obtain ⟨x, ts, rfl⟩ := List.exists_cons_of_ne_nil hne
    rcases List.mem_cons.mp hc with rfl | hmem
    · exact Nat.le_refl _
    · have hle := (List.pairwise_cons.mp hsorted).1 c hmem
      have hx := hforward x List.mem_cons_self
      show x.span.start ≤ c.span.start
      omega
  · show c.span.stop ≤ (ts.getLast hne).span.stop
    rw [InOrder, ← List.dropLast_concat_getLast hne, List.pairwise_append] at hsorted
    rw [← List.dropLast_concat_getLast hne] at hc
    rcases List.mem_append.mp hc with hmem | hmem
    · have hle := hsorted.2.2 c hmem _ (List.mem_singleton.mpr rfl)
      have hlast := hforward _ (List.getLast_mem hne)
      omega
    · exact Nat.le_of_eq (by rw [List.mem_singleton.mp hmem])

/-- The children of what stands in a text come one after the other, and it spans them. -/
theorem Standing.children {source : Text} {x : Tree} (h : Standing source x) :
    InOrder x.children ∧ (x.children ≠ [] → x.span = spanOf x.children 0) := by
  have hchild : ∀ y ∈ x.children, y.span.start ≤ y.span.stop := fun y hy => (h.child hy).bounds.2.2
  cases h with
  | placed hplaced hleaves =>
    have hsorted := (Token.pairwise_significant source).sublist hleaves
    cases hplaced with
    | solid hsolid =>
      cases hsolid with
      | leaf t => exact ⟨.nil, fun h => absurd rfl h⟩
      | branch hne hts =>
        exact ⟨inOrder_of_leaves (fun t ht => (hts t ht).spansLeaves) hsorted, fun _ => rfl⟩
    | @rule ts hne hts =>
      rw [leaves_branch, leavesAll_append, List.pairwise_append] at hsorted
      have horder := inOrder_of_leaves (fun t ht => (hts t ht).spansLeaves) hsorted.1
      refine ⟨List.pairwise_append.mpr ⟨horder, List.pairwise_singleton _ _, ?_⟩, fun _ => rfl⟩
      intro a ha b hb
      rw [List.mem_singleton.mp hb]
      exact (inside_of_inOrder hne horder (fun c hc => hchild c (List.mem_append_left _ hc)) ha).2
  | empty ht => exact ⟨.nil, fun h => absurd rfl h⟩

theorem Standing.nested {source : Text} {x : Tree} (h : Standing source x) : Nested source x := by
  obtain ⟨hstart, hstop, hforward⟩ := h.bounds
  obtain ⟨horder, hspan⟩ := h.children
  refine ⟨hstart, hstop, hforward, horder, fun c hc => ?_⟩
  have hne : x.children ≠ [] := List.ne_nil_of_mem hc
  rw [hspan hne]
  exact inside_of_inOrder hne horder (fun c hc => (h.child hc).bounds.2.2) hc

end Tree

/-- The trees below the root stand in the text. -/
theorem standing_of_mem_root {limit : Nat} {source : Text} {x : Tree}
    (h : x ∈ (parse limit source).root.children) : x.Standing source := by
  refine .placed (Grammar.ruleList_placed limit h) ?_
  rw [← leaves_root limit source]
  exact Tree.sublist_leavesAll h

/-- The root spans the whole text. -/
theorem nested_root (limit : Nat) (source : Text) : (parse limit source).root.Nested source := by
  refine ⟨source.isBoundary_zero, source.isBoundary_byteLength, Nat.zero_le _, ?_, fun c hc => ?_⟩
  · refine Tree.inOrder_of_leaves (fun x hx => (Grammar.ruleList_placed limit hx).spansLeaves) ?_
    show (parse limit source).root.leaves.Pairwise Token.Before
    rw [leaves_root]
    exact Token.pairwise_significant source
  · exact ⟨Nat.zero_le _, (standing_of_mem_root hc).bounds.2.1.le⟩

/-- A site is that of the root, or its node stands in the text. -/
theorem standing_of_mem_sites {limit : Nat} {source : Text} {s : Site}
    (h : s ∈ (parse limit source).sites) :
    s = (parse limit source).rootSite ∨ s.node.Standing source := by
  rcases List.mem_cons.mp h with rfl | h
  · exact Or.inl rfl
  · refine Or.inr (Site.of_mem_preorderAll (Q := fun _ x => x.Standing source) ?_ _ _ _ ?_ h)
    · intro ancestors x y id hx hy
      exact hx.child hy
    · intro x hx
      exact standing_of_mem_root hx

/-! ### Nodes without children -/

namespace Site

/-- Whether a site is a node without children. -/
def IsBare (s : Site) : Prop := ∃ kind span, s.node = .node kind span []

/-- Whether a node without children is the empty body of a rule, after the tokens at some sites. -/
def IsEmptyBody (before : List Site) (s : Site) : Prop :=
  ∃ t, (before.filterMap token?).getLast? = some t ∧
    s.node = .node .elements (.empty t.span.stop) []

/-- In a solid tree every node has children. -/
theorem not_isBare_of_solid {x : Tree} (h : x.Solid) {id : Nat} {ancestors : List (Nat × Tree)}
    {s : Site} (hs : s ∈ preorder id ancestors x) : ¬s.IsBare := by
  have hsolid : s.node.Solid := by
    refine of_mem_preorder (Q := fun _ x => x.Solid) ?_ id ancestors x h hs
    intro ancestors x y id hx hy
    cases hx with
    | leaf t => exact absurd hy List.not_mem_nil
    | branch hne hts => exact hts y hy
  rintro ⟨kind, span, hnode⟩
  rw [hnode] at hsolid
  cases hsolid with
  | branch hne _ => exact absurd rfl hne

theorem not_isBare_of_all {ts : List Tree} (h : ∀ x ∈ ts, x.Solid) {id : Nat}
    {ancestors : List (Nat × Tree)} {s : Site} (hs : s ∈ preorderAll id ancestors ts) : ¬s.IsBare := by
  obtain ⟨x, hx, id', hs⟩ := mem_preorderAll hs
  exact not_isBare_of_solid (h x hx) hs

theorem preorderAll_append (id : Nat) (ancestors : List (Nat × Tree)) (ts us : List Tree) :
    ∃ id', preorderAll id ancestors (ts ++ us) =
      preorderAll id ancestors ts ++ preorderAll id' ancestors us := by
  induction ts generalizing id with
  | nil => exact ⟨id, rfl⟩
  | cons t ts ih =>
    obtain ⟨id', h⟩ := ih (id + t.size)
    exact ⟨id', by rw [List.cons_append, preorderAll, h, preorderAll, List.append_assoc]⟩

/-- Sites before others of which none is bare, and a last one that is. -/
theorem split_before_last {sites before after : List Site} {s last : Site}
    (h : sites ++ [last] = before ++ s :: after) (hsites : ∀ r ∈ sites, ¬r.IsBare) (hs : s.IsBare) :
    before = sites ∧ s = last := by
  rcases List.append_eq_append_iff.mp h with ⟨more, hbefore, hlast⟩ | ⟨more, hsplit, hlast⟩
  · cases more with
    | nil => exact ⟨by rw [hbefore, List.append_nil], (List.cons.inj hlast).1.symm⟩
    | cons r more => exact absurd (List.cons.inj hlast).2 (by simp)
  · cases more with
    | nil => exact ⟨by rw [hsplit, List.append_nil], (List.cons.inj hlast).1⟩
    | cons r more =>
      have hmem : s ∈ sites := by
        rw [hsplit, (List.cons.inj hlast).1]
        exact List.mem_append_right _ List.mem_cons_self
      exact absurd hs (hsites s hmem)

/-- Below the root, a node without children is the empty body of a rule. -/
theorem isEmptyBody_of_placed {x : Tree} (h : x.Placed) {id : Nat} {ancestors : List (Nat × Tree)}
    {before after : List Site} {s : Site} (hsplit : preorder id ancestors x = before ++ s :: after)
    (hs : s.IsBare) : IsEmptyBody before s := by
  cases h with
  | solid h =>
    have hmem : s ∈ preorder id ancestors x := by
      rw [hsplit]
      exact List.mem_append_right _ List.mem_cons_self
    exact absurd hs (not_isBare_of_solid h hmem)
  | @rule ts hne hts =>
    rw [Tree.branch, preorder] at hsplit
    obtain ⟨id', hall⟩ := preorderAll_append (id + 1) _ ts
      [.node .elements (.empty (Tree.spanOf ts 0).stop) []]
    rw [hall] at hsplit
    cases before with
    | nil =>
      -- the rule itself has children
      obtain ⟨kind, span, hnode⟩ := hs
      rw [← (List.cons.inj hsplit).1] at hnode
      exact absurd (congrArg Tree.children hnode) (by simp [Tree.children])
    | cons r before =>
      obtain ⟨rfl, hrest⟩ := List.cons.inj hsplit
      obtain ⟨rfl, rfl⟩ := split_before_last hrest (fun r hr => not_isBare_of_all hts hr) hs
      obtain ⟨first, last, -, hlast, hspan⟩ :=
        Tree.spansLeaves_branch .rule hne fun t ht => (hts t ht).spansLeaves
      refine ⟨last, ?_, ?_⟩
      · rw [List.filterMap_cons_none rfl, filterMap_token?_preorderAll]
        exact hlast
      · show Tree.node _ _ _ = _
        rw [show Tree.spanOf ts 0 = _ from hspan]

theorem IsEmptyBody.append {before : List Site} {s : Site} (h : IsEmptyBody before s)
    (sites : List Site) : IsEmptyBody (sites ++ before) s := by
  obtain ⟨t, ht, hnode⟩ := h
  refine ⟨t, ?_, hnode⟩
  rw [List.filterMap_append, List.getLast?_append, ht]
  rfl

theorem isEmptyBody_of_all {ts : List Tree} (h : ∀ x ∈ ts, x.Placed) {id : Nat}
    {ancestors : List (Nat × Tree)} {before after : List Site} {s : Site}
    (hsplit : preorderAll id ancestors ts = before ++ s :: after) (hs : s.IsBare) :
    IsEmptyBody before s := by
  induction ts generalizing id before with
  | nil => exact absurd hsplit (by simp [preorderAll])
  | cons x ts ih =>
    have hmore : ∀ y ∈ ts, y.Placed := fun y hy => h y (List.mem_cons_of_mem _ hy)
    rw [preorderAll] at hsplit
    -- the site is one of the first tree, or it comes after this tree
    rcases List.append_eq_append_iff.mp hsplit with ⟨more, rfl, hrest⟩ | ⟨more, hfirst, hrest⟩
    · exact (ih hmore hrest).append _
    · cases more with
      | nil =>
        have hnil : IsEmptyBody [] s := ih hmore hrest.symm
        rw [List.append_nil] at hfirst
        rw [← hfirst, ← List.append_nil (preorder id ancestors x)]
        exact hnil.append _
      | cons r more =>
        obtain ⟨rfl, -⟩ := List.cons.inj hrest
        exact isEmptyBody_of_placed (h x List.mem_cons_self) hfirst hs

end Site

/-- Spans nest.  The root spans the whole text, and every other node with children spans from its first
child to its last one.  At each site, the bounds are between characters of the text, and the children
come one after the other inside of the node.  A token is not empty.  A node without children is the
body of a rule, without bytes at the end of the token before it, or the root of a text without
tokens. -/
theorem spans_nest (limit : Nat) (source : Text) :
    let tree := parse limit source
    tree.root.span = ⟨0, source.byteLength⟩ ∧
      (∀ s ∈ tree.sites, s.node.Nested source ∧
        (s.parent? ≠ none → ∀ h : s.node.children ≠ [],
          s.node.span =
            ⟨(s.node.children.head h).span.start, (s.node.children.getLast h).span.stop⟩) ∧
        ∀ t, s.node = .leaf t → t.span.start < t.span.stop) ∧
      ∀ before s after kind span, tree.sites = before ++ s :: after → s.node = .node kind span [] →
        (kind = .elements ∧ ∃ t, (before.filterMap Site.token?).getLast? = some t ∧
            span = .empty t.span.stop) ∨
          kind = .sourceFile ∧ before = [] ∧ Token.significant source = [] := by
  intro tree
  refine ⟨rfl, fun s hs => ⟨?_, ?_, ?_⟩, ?_⟩
  · rcases standing_of_mem_sites hs with rfl | h
    · exact nested_root limit source
    · exact h.nested
  · intro hparent h
    rcases standing_of_mem_sites hs with rfl | hstanding
    · exact absurd rfl hparent
    · rw [hstanding.children.2 h, Tree.spanOf_eq h]
  · intro t ht
    have hmem : t ∈ Token.significant source := by
      rw [← filterMap_token?_sites limit source]
      exact List.mem_filterMap.mpr ⟨s, hs, by rw [Site.token?, ht]⟩
    exact Token.start_lt_stop hmem
  · intro before s after kind span hsplit hnode
    cases before with
    | nil =>
      -- the first site is the root, and its leaves are the tokens
      have hroot : tree.root = s.node := congrArg Site.node (List.cons.inj hsplit).1
      rw [hnode] at hroot
      have hleaves := leaves_root limit source
      rw [show (parse limit source).root = _ from hroot] at hleaves
      exact Or.inr ⟨(congrArg Tree.kind hroot).symm, rfl, hleaves.symm⟩
    | cons r before =>
      obtain ⟨rfl, hrest⟩ := List.cons.inj hsplit
      have hplaced : ∀ x ∈ tree.root.children, x.Placed := fun x hx => Grammar.ruleList_placed limit hx
      obtain ⟨t, ht, hbody⟩ := Site.isEmptyBody_of_all hplaced hrest ⟨kind, span, hnode⟩
      rw [hnode, Tree.node.injEq] at hbody
      refine Or.inl ⟨hbody.1, t, ?_, hbody.2.1⟩
      rw [List.filterMap_cons_none rfl]
      exact ht

/-- A rule without a body stops after its comment, which ends with a character of two bytes, and so its
body stands there. -/
theorem spans_nest_after_comment :
    let tree := parse 1 "a ;é\n".toList
    ∃ before s, tree.sites = before ++ [s] ∧ s.node = .node .elements (.empty 5) [] ∧
      ∃ t, (before.filterMap Site.token?).getLast? = some t ∧ t.span.stop = 5 := by
  intro tree
  have hlast : tree.sites.getLast?.map
      (fun s => (s.node.kind, s.node.span, s.node.children.length, s.token?.isSome)) =
        some (.elements, .empty 5, 0, false) := by decide +kernel
  obtain ⟨s, hs, hfields⟩ := Option.map_eq_some_iff.mp hlast
  obtain ⟨before, hsites⟩ := List.getLast?_eq_some_iff.mp hs
  have hnode : s.node = .node .elements (.empty 5) [] := by
    simp only [Prod.mk.injEq, Site.token?] at hfields
    revert hfields
    cases s.node with
    | leaf t => simp
    | node kind span children =>
      rintro ⟨rfl, rfl, hnil, -⟩
      rw [show children = [] from List.length_eq_zero_iff.mp hnil]
  rcases (spans_nest 1 "a ;é\n".toList).2.2 before s [] _ _ hsites hnode with ⟨-, t, ht, hspan⟩ | ⟨h, -⟩
  · exact ⟨before, s, hsites, hnode, t, ht, (congrArg Span.stop hspan).symm⟩
  · exact absurd h (by decide)

end Abnf
