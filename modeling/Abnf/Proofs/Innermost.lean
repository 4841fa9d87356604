/-
The innermost node at an offset.

The search for an offset enters the first child that contains it and never goes back.  It still finds what an
exhaustive search would find: siblings come one after the other, so that no second child contains the offset,
and a node spans all that is below it, so that nothing below another child contains it either.  The body of a
rule that has none contains no offset and is never entered.  So all nodes that contain the offset are on the
path from the node that is found up to the root (`siteAt?_is_innermost`).
-/
import Mathlib.Logic.Relation
import Abnf.Proofs.Nesting
import Abnf.Proofs.Resolution

namespace Abnf

/-! ### The way up -/

namespace Site

/-- Whether a site is another one or one of its ancestors: from `s` one comes to `r` by going from nodes to
their parents. -/
def LeadsUpTo (s r : Site) : Prop :=
  Relation.ReflTransGen (fun below above => below.parent? = some above) s r

mutual

/-- From every site of a tree one comes up to that of the tree itself. -/
theorem leadsUpTo_of_mem (id : Nat) (ancestors : List (Nat × Tree)) (x : Tree) {s : Site}
    (h : s ∈ preorder id ancestors x) : s.LeadsUpTo ⟨id, x, ancestors⟩ := by
  cases x with
  | leaf token =>
    rw [List.mem_singleton.mp h]
    exact .refl
  | node kind span children =>
    rcases List.mem_cons.mp h with rfl | h
    · exact .refl
    · obtain ⟨id', t, hup⟩ := exists_leadsUpTo_of_mem _ _ children h
      exact hup.tail rfl

theorem exists_leadsUpTo_of_mem (id : Nat) (ancestors : List (Nat × Tree)) (ts : List Tree) {s : Site}
    (h : s ∈ preorderAll id ancestors ts) : ∃ id' t, s.LeadsUpTo ⟨id', t, ancestors⟩ := by
  cases ts with
  | nil => exact absurd h List.not_mem_nil
  | cons t ts =>
    rcases List.mem_append.mp h with h | h
    · exact ⟨id, t, leadsUpTo_of_mem id ancestors t h⟩
    · exact exists_leadsUpTo_of_mem _ ancestors ts h

end

end Site

/-! ### The way down -/

/-- Of trees that come one after the other, at most one contains an offset. -/
theorem Tree.not_contains_of_later {t u : Tree} {ts : List Tree} (horder : InOrder (t :: ts)) (hu : u ∈ ts)
    {offset : Nat} (hcontains : u.span.contains offset = true) : t.span.contains offset = false := by
  have hstop := (List.pairwise_cons.mp horder).1 u hu
  rw [Span.contains_iff] at hcontains
  rw [Bool.eq_false_iff, Ne, Span.contains_iff]
  omega

namespace Site

variable {source : Text} {offset : Nat}

/-- What a site below a tree contains, the tree contains. -/
theorem contains_of_mem_preorder {x : Tree} (hx : x.Standing source) {id : Nat}
    {ancestors : List (Nat × Tree)} {r : Site} (hr : r ∈ preorder id ancestors x)
    (hcontains : r.node.span.contains offset = true) : x.span.contains offset = true := by
  -- the bounds of the tree hold for all that stands below it
  have hinside : r.node.Standing source ∧
      x.span.start ≤ r.node.span.start ∧ r.node.span.stop ≤ x.span.stop := by
    refine of_mem_preorder (Q := fun _ y => y.Standing source ∧
      x.span.start ≤ y.span.start ∧ y.span.stop ≤ x.span.stop) ?_ id ancestors x
      ⟨hx, Nat.le_refl _, Nat.le_refl _⟩ hr
    rintro ancestors y z id ⟨hy, hstart, hstop⟩ hz
    obtain ⟨hstart', hstop'⟩ := hy.nested.inside z hz
    exact ⟨hy.child hz, Nat.le_trans hstart hstart', Nat.le_trans hstop' hstop⟩
  rw [Span.contains_iff] at hcontains ⊢
  omega

mutual

/-- All sites of a tree that contain the offset are met on the way up from where the search ends. -/
theorem around_leadsUpTo (id : Nat) (ancestors : List (Nat × Tree)) (x : Tree)
    (horder : Tree.InOrder x.children) (hbelow : ∀ y ∈ x.children, y.Standing source)
    (hx : x.span.contains offset = true) {r : Site} (hr : r ∈ preorder id ancestors x)
    (hcontains : r.node.span.contains offset = true) :
    (around offset id ancestors x).LeadsUpTo r := by
  cases x with
  | leaf token =>
    rw [List.mem_singleton.mp hr]
    exact .refl
  | node kind span children =>
    rcases List.mem_cons.mp hr with rfl | hr
    · exact leadsUpTo_of_mem id ancestors _ (around_mem offset id ancestors _ hx).1
    · obtain ⟨s, hs, hup⟩ := aroundAny?_leadsUpTo _ _ children horder hbelow hr hcontains
      rw [around, hs]
      exact hup

/-- The search enters the tree that the site is in. -/
theorem aroundAny?_leadsUpTo (id : Nat) (ancestors : List (Nat × Tree)) (ts : List Tree)
    (horder : Tree.InOrder ts) (hts : ∀ t ∈ ts, t.Standing source) {r : Site}
    (hr : r ∈ preorderAll id ancestors ts) (hcontains : r.node.span.contains offset = true) :
    ∃ s, aroundAny? offset id ancestors ts = some s ∧ s.LeadsUpTo r := by
  cases ts with
  | nil => exact absurd hr List.not_mem_nil
  | cons t ts =>
    have ht := hts t List.mem_cons_self
    have hmore : ∀ u ∈ ts, u.Standing source := fun u hu => hts u (List.mem_cons_of_mem _ hu)
    rw [aroundAny?]
    rcases List.mem_append.mp hr with hr | hr
    · have hin := contains_of_mem_preorder ht hr hcontains
      rw [if_pos hin]
      exact ⟨_, rfl, around_leadsUpTo id ancestors t ht.children.1 (fun y hy => ht.child hy) hin hr hcontains⟩
    · -- the site is in a later tree, and that tree contains the offset
      obtain ⟨u, hu, id', hmem⟩ := mem_preorderAll hr
      have hin := contains_of_mem_preorder (hmore u hu) hmem hcontains
      rw [if_neg (by rw [Tree.not_contains_of_later horder hu hin]; exact Bool.false_ne_true)]
      exact aroundAny?_leadsUpTo _ ancestors ts (List.pairwise_cons.mp horder).2 hmore hr hcontains

end

end Site

/-! ### Tokens -/

/-- A token around an offset is part of the tree unless it is a blank or a line break. -/
theorem Token.significant_of_contains {source : Text} {t : Token} (ht : t ∈ scan source)
    (hblank : t.kind ≠ .whitespace) (hbreak : t.kind ≠ .newline) {offset : Nat}
    (h : t.span.contains offset = true) : t ∈ significant source := by
  refine List.mem_filter.mpr ⟨ht, ?_⟩
  have hend : t.kind ≠ .endOfText := by
    rcases eq_end_or_first_of_mem ht with ⟨-, hempty⟩ | ⟨c, cs, hfirst⟩
    · -- the token at the end is empty, and so around no offset
      rw [Span.contains_iff, span, hempty] at h
      exact absurd h.2 (Nat.not_lt.mpr h.1)
    · intro hkind
      have hlexical := lexeme_lexical c cs
      rw [hfirst] at hkind
      rw [show (lexeme c cs).1 = .endOfText from hkind] at hlexical
      cases hlexical
  simp [isSignificant, hblank, hbreak, hend]

namespace SyntaxTree

variable {limit : Nat} {source : Text} {offset : Nat}

theorem siteAt?_eq_none_iff :
    (parse limit source).siteAt? offset = none ↔ source.byteLength ≤ offset := by
  have hroot : (parse limit source).root.span.contains offset = true ↔ offset < source.byteLength := by
    rw [Span.contains_iff]
    exact ⟨And.right, fun h => ⟨Nat.zero_le _, h⟩⟩
  rw [siteAt?]
  split
  · rename_i hin
    have hlt := hroot.mp hin
    exact ⟨fun h => absurd h (by simp), fun h => by omega⟩
  · rename_i hout
    rw [hroot] at hout
    exact ⟨fun _ => by omega, fun _ => rfl⟩

theorem siteAt?_eq_some {s : Site} (h : (parse limit source).siteAt? offset = some s) :
    (parse limit source).root.span.contains offset = true ∧
      Site.around offset 0 [] (parse limit source).root = s := by
  rw [siteAt?] at h
  split at h
  · exact ⟨‹_›, Option.some.inj h⟩
  · cases h

/-- The search ends at a token iff it is one of the tree that contains the offset. -/
theorem siteAt?_eq_leaf_iff {s : Site} (h : (parse limit source).siteAt? offset = some s) {t : Token} :
    s.node = .leaf t ↔ t ∈ Token.significant source ∧ t.span.contains offset = true := by
  obtain ⟨hroot, rfl⟩ := siteAt?_eq_some h
  obtain ⟨hmem, hspan⟩ := Site.around_mem offset 0 [] _ hroot
  constructor
  · intro hleaf
    rw [hleaf] at hspan
    refine ⟨?_, hspan⟩
    rw [← filterMap_token?_sites limit source]
    exact List.mem_filterMap.mpr ⟨_, hmem, by rw [Site.token?, hleaf]⟩
  · rintro ⟨ht, hcontains⟩
    obtain ⟨s', -, hs', htoken⟩ := siteAt?_of_mem limit ht hcontains
    rw [Option.some.inj (h.symm.trans hs')]
    exact Site.node_of_token? htoken

end SyntaxTree

/-- The search for an offset finds the innermost node.  It finds none iff the offset is not in the text.  What
it finds is a node of the tree that contains the offset, and every node of the tree that contains the offset is
this one or one of its ancestors.  It is a token iff the offset is in a token other than a blank or a line
break, and then it is that token. -/
theorem siteAt?_is_innermost (limit : Nat) (source : Text) (offset : Nat) :
    let tree := parse limit source
    (tree.siteAt? offset = none ↔ source.byteLength ≤ offset) ∧
      ∀ s, tree.siteAt? offset = some s →
        s ∈ tree.sites ∧ s.node.span.contains offset = true ∧
          (∀ r ∈ tree.sites, r.node.span.contains offset = true → s.LeadsUpTo r) ∧
          ∀ t, s.node = .leaf t ↔ t ∈ Token.scan source ∧ t.kind ≠ .whitespace ∧ t.kind ≠ .newline ∧
            t.span.contains offset = true := by
  intro tree
  refine ⟨SyntaxTree.siteAt?_eq_none_iff, fun s hs => ?_⟩
  obtain ⟨hroot, hfound⟩ := SyntaxTree.siteAt?_eq_some hs
  obtain ⟨hmem, hspan⟩ := Site.around_mem offset 0 [] tree.root hroot
  rw [hfound] at hmem hspan
  refine ⟨hmem, hspan, fun r hr hcontains => ?_, fun t => ?_⟩
  · rw [← hfound]
    exact Site.around_leadsUpTo 0 [] tree.root (nested_root limit source).inOrder
      (fun y hy => standing_of_mem_root hy) hroot hr hcontains
  · rw [SyntaxTree.siteAt?_eq_leaf_iff hs]
    constructor
    · rintro ⟨ht, hcontains⟩
      obtain ⟨hscan, hsig⟩ := List.mem_filter.mp ht
      simp only [Token.isSignificant, Bool.and_eq_true, bne_iff_ne, ne_eq] at hsig
      exact ⟨hscan, hsig.1.1, hsig.1.2, hcontains⟩
    · rintro ⟨hscan, hblank, hbreak, hcontains⟩
      exact ⟨Token.significant_of_contains hscan hblank hbreak hcontains, hcontains⟩

/-- The blank between two names in a group that is left open, after a rule without a body: the search ends at
the names together, and the rule is one of their ancestors. -/
theorem siteAt?_is_innermost_blank :
    let tree := parse 1 "a\nb = (c d".toList
    ∃ s r, tree.siteAt? 8 = some s ∧ s.node.kind = .concatenation ∧ s.node.span.contains 8 = true ∧
      r ∈ tree.sites ∧ r.node.kind = .rule ∧ r.node.span.contains 8 = true ∧ s.LeadsUpTo r := by
  intro tree
  have hsite : (tree.siteAt? 8).map (·.node.kind) = some .concatenation := by decide +kernel
  have hrule : (tree.sites.find? fun s => s.node.kind == .rule && s.node.span.contains 8).isSome = true := by
    decide +kernel
  obtain ⟨s, hs, hkind⟩ := Option.map_eq_some_iff.mp hsite
  obtain ⟨r, hr⟩ := Option.isSome_iff_exists.mp hrule
  have hfound := List.find?_some hr
  rw [Bool.and_eq_true, beq_iff_eq] at hfound
  obtain ⟨hrkind, hrspan⟩ := hfound
  have hmem := List.mem_of_find?_eq_some hr
  obtain ⟨-, hspan, hall, -⟩ := (siteAt?_is_innermost 1 "a\nb = (c d".toList 8).2 s hs
  exact ⟨s, r, hs, hkind, hspan, hmem, hrkind, hrspan, hall r hmem hrspan⟩

end Abnf
