/-
The name at an offset.

A tree is searched for an offset from the root down: the first child that contains the offset is
entered.  Since the tokens of a text stand one after the other and nodes span their tokens, the search
ends at the token that contains the offset (`SyntaxTree.siteAt?_of_mem`), and the node of the name is
the parent of that token.  So the search finds a name iff the offset is in one, and it finds that name
(`targetAt?_iff_name`).  The same holds for the point of the offset, since no name holds a line break.
-/
import Abnf.Proofs.Layout
import Abnf.Proofs.Occurrence
import Abnf.Proofs.Rows
import Abnf.Proofs.Sites
import Abnf.Proofs.Spans

namespace Abnf

namespace Token

/-! ### Tokens around an offset -/

/-- An offset in a token is in one of its characters. -/
theorem exists_char_of_contains {text : Text} {t : Token} (ht : t ∈ scan text) {offset : Nat}
    (h : t.span.contains offset = true) :
    ∃ before c after, text = before ++ c :: after ∧ c ∈ t.text ∧ Text.byteLength before ≤ offset ∧
      offset < Text.byteLength before + c.utf8Size := by
  obtain ⟨front, back, htext, hstart⟩ := exists_append_of_mem ht
  rw [Span.contains_iff] at h
  obtain ⟨hle, hlt⟩ : t.start ≤ offset ∧ offset < t.start + t.text.byteLength := h
  have hinside : offset - t.start < t.text.byteLength := by omega
  obtain ⟨before, c, after, hchars, -, h1, h2⟩ := Text.exists_charAt? hinside
  refine ⟨front ++ before, c, after ++ back, ?_, ?_, ?_, ?_⟩
  · rw [htext, hchars]
    simp
  · rw [hchars]
    exact List.mem_append_right _ List.mem_cons_self
  · rw [Text.byteLength_append]
    omega
  · rw [Text.byteLength_append]
    omega

/-- A name is a letter and characters of names after it. -/
theorem letters_of_name {text : Text} {t : Token} (ht : t ∈ scan text)
    (hkind : t.kind = .identifier) :
    ∃ c w, t.text = c :: w ∧ c.isAlpha = true ∧ w.all isNameChar = true := by
  rcases eq_end_or_first_of_mem ht with ⟨hend, -⟩ | ⟨c, cs, hfirst⟩
  · rw [hend] at hkind
    exact absurd hkind (by decide)
  · have hlexeme : (lexeme c cs).1 = .identifier := by
      rw [hfirst] at hkind
      exact hkind
    have hletter := isAlpha_of_identifier hlexeme
    have htext : t.text = c :: cs.take (run isNameChar cs) := by
      rw [hfirst]
      simp only [first, lexeme_letter hletter]
    exact ⟨c, _, htext, hletter, List.all_eq_true.mpr fun d hd => mem_take_run hd⟩

theorem isNameChar_of_mem_name {text : Text} {t : Token} (ht : t ∈ scan text)
    (hkind : t.kind = .identifier) {c : Char} (hc : c ∈ t.text) : isNameChar c = true := by
  obtain ⟨d, w, htext, hletter, hall⟩ := letters_of_name ht hkind
  rw [htext] at hc
  rcases List.mem_cons.mp hc with rfl | hc
  · exact isNameChar_of_isAlpha hletter
  · exact List.all_eq_true.mp hall c hc

/-- A name holds no line break. -/
theorem isRowBreak_of_mem_name {text : Text} {t : Token} (ht : t ∈ scan text)
    (hkind : t.kind = .identifier) {c : Char} (hc : c ∈ t.text) : Text.isRowBreak c = false := by
  have hname := isNameChar_of_mem_name ht hkind hc
  rw [Bool.eq_false_iff]
  intro hbreak
  simp only [Text.isRowBreak, Bool.or_eq_true, beq_iff_eq] at hbreak
  rcases hbreak with rfl | rfl <;> exact absurd hname (by decide)

theorem stop_le_byteLength {text : Text} {t : Token} (ht : t ∈ scan text) :
    t.span.stop ≤ text.byteLength := by
  obtain ⟨before, after, htext, hstart⟩ := exists_append_of_mem ht
  show t.start + t.text.byteLength ≤ _
  rw [htext, hstart, Text.byteLength_append, Text.byteLength_append]
  omega

end Token

namespace Site

/-! ### The search from the root down -/

mutual

/-- The search ends at a site of the tree that contains the offset. -/
theorem around_mem (offset id : Nat) (ancestors : List (Nat × Tree)) (x : Tree)
    (h : x.span.contains offset = true) :
    around offset id ancestors x ∈ preorder id ancestors x ∧
      (around offset id ancestors x).node.span.contains offset = true := by
  cases x with
  | leaf token => exact ⟨List.mem_singleton.mpr rfl, h⟩
  | node kind span children =>
    rw [around, preorder]
    cases hany : aroundAny? offset (id + 1) ((id, .node kind span children) :: ancestors) children with
    | none => exact ⟨List.mem_cons_self, h⟩
    | some s =>
      obtain ⟨hmem, hspan⟩ := aroundAny?_mem _ _ _ children hany
      exact ⟨List.mem_cons_of_mem _ hmem, hspan⟩

theorem aroundAny?_mem (offset id : Nat) (ancestors : List (Nat × Tree)) (ts : List Tree) {s : Site}
    (h : aroundAny? offset id ancestors ts = some s) :
    s ∈ preorderAll id ancestors ts ∧ s.node.span.contains offset = true := by
  cases ts with
  | nil => exact absurd h (by simp [aroundAny?])
  | cons t ts =>
    rw [aroundAny?] at h
    rw [preorderAll]
    split at h
    · obtain ⟨hmem, hspan⟩ := around_mem offset id ancestors t ‹_›
      rw [Option.some.inj h] at hmem hspan
      exact ⟨List.mem_append_left _ hmem, hspan⟩
    · obtain ⟨hmem, hspan⟩ := aroundAny?_mem _ _ _ ts h
      exact ⟨List.mem_append_right _ hmem, hspan⟩

end

theorem aroundAny?_append {offset id : Nat} {ancestors : List (Nat × Tree)} {ts : List Tree}
    {s : Site} (h : aroundAny? offset id ancestors ts = some s) (us : List Tree) :
    aroundAny? offset id ancestors (ts ++ us) = some s := by
  induction ts generalizing id with
  | nil => exact absurd h (by simp [aroundAny?])
  | cons t ts ih =>
    rw [List.cons_append, aroundAny?]
    rw [aroundAny?] at h
    split
    · rwa [if_pos ‹_›] at h
    · rw [if_neg ‹_›] at h
      exact ih h

section

variable {offset : Nat} {u : Token} (hu : u.span.contains offset = true)
include hu

/-- Among trees that stand one after the other, the one with the token at the offset is entered. -/
theorem aroundAny?_of_mem {ancestors : List (Nat × Tree)} {ts : List Tree}
    (hspans : ∀ t ∈ ts, t.SpansLeaves) (hsorted : (Tree.leavesAll ts).Pairwise Token.Before)
    (hmem : u ∈ Tree.leavesAll ts)
    (hdeep : ∀ t ∈ ts, t.leaves.Pairwise Token.Before → u ∈ t.leaves →
      ∀ id, (around offset id ancestors t).token? = some u) (id : Nat) :
    ∃ s, aroundAny? offset id ancestors ts = some s ∧ s.token? = some u := by
  induction ts generalizing id with
  | nil => exact absurd hmem List.not_mem_nil
  | cons t ts ih =>
    rw [Tree.leavesAll_cons] at hsorted hmem
    obtain ⟨hfirst, hmore, hbefore⟩ := List.pairwise_append.mp hsorted
    have hspan := hspans t List.mem_cons_self
    rw [aroundAny?]
    rcases List.mem_append.mp hmem with hmem | hmem
    · rw [if_pos (Tree.contains_of_mem hspan hu hfirst hmem)]
      exact ⟨_, rfl, hdeep t List.mem_cons_self hfirst hmem id⟩
    · have hnot := Tree.not_contains_of_before hspan hu fun v hv => hbefore v hv u hmem
      rw [if_neg (by rw [hnot]; decide)]
      exact ih (fun t ht => hspans t (List.mem_cons_of_mem _ ht)) hmore hmem
        (fun t ht => hdeep t (List.mem_cons_of_mem _ ht)) _

/-- The search in a solid tree ends at the token at the offset. -/
theorem token?_around {x : Tree} (h : x.Solid) (hsorted : x.leaves.Pairwise Token.Before)
    (hmem : u ∈ x.leaves) (id : Nat) (ancestors : List (Nat × Tree)) :
    (around offset id ancestors x).token? = some u := by
  induction h generalizing id ancestors with
  | leaf t =>
    rw [List.mem_singleton.mp hmem]
    rfl
  | branch hne h ih =>
    obtain ⟨s, hs, htoken⟩ := aroundAny?_of_mem hu (fun t ht => (h t ht).spansLeaves) hsorted hmem
      (fun t ht hsorted hmem id => ih t ht hsorted hmem id _) (id + 1)
    rw [Tree.branch, around, hs]
    exact htoken

/-- In a rule without a body, the body comes last and is never entered. -/
theorem token?_around_placed {x : Tree} (h : x.Placed) (hsorted : x.leaves.Pairwise Token.Before)
    (hmem : u ∈ x.leaves) (id : Nat) (ancestors : List (Nat × Tree)) :
    (around offset id ancestors x).token? = some u := by
  cases h with
  | solid h => exact token?_around hu h hsorted hmem id ancestors
  | rule hne h =>
    rw [Tree.leaves_branch, Tree.leavesAll_append] at hsorted hmem
    simp only [Tree.leavesAll_cons, Tree.leaves_node, Tree.leavesAll_nil, List.append_nil]
      at hsorted hmem
    obtain ⟨s, hs, htoken⟩ := aroundAny?_of_mem hu (fun t ht => (h t ht).spansLeaves) hsorted hmem
      (fun t ht hsorted hmem id => token?_around hu (h t ht) hsorted hmem id _) (id + 1)
    rw [Tree.branch, around, aroundAny?_append hs]
    exact htoken

end

/-! ### Names and their nodes -/

theorem isName_of_mem_nameNode {u t : Token} {id : Nat} {ancestors : List (Nat × Tree)} {s : Site}
    (hs : s ∈ preorder id ancestors (Grammar.nameNode u)) (hchild : .leaf t ∈ s.node.children) :
    s.node.kind.isName = true := by
  rw [preorder_nameNode] at hs
  rcases List.mem_cons.mp hs with rfl | hs
  · exact isName_nameNode u
  · rw [List.mem_singleton.mp hs] at hchild
    exact absurd hchild List.not_mem_nil

/-- A tree that holds references only has names in name nodes only. -/
theorem isName_of_referring {x : Tree} (h : x.Referring) {t : Token} (hkind : t.kind = .identifier)
    {id : Nat} {ancestors : List (Nat × Tree)} {s : Site} (hs : s ∈ preorder id ancestors x)
    (hchild : .leaf t ∈ s.node.children) : s.node.kind.isName = true := by
  induction h generalizing id ancestors with
  | leaf _ =>
    rw [List.mem_singleton.mp hs] at hchild
    exact absurd hchild List.not_mem_nil
  | name => exact isName_of_mem_nameNode hs hchild
  | @node kind span ts _ _ hts ih =>
    rw [preorder] at hs
    rcases List.mem_cons.mp hs with rfl | hs
    · cases hts _ hchild with
      | leaf hnot => exact absurd hkind hnot
    · obtain ⟨u, hu, id', hs⟩ := mem_preorderAll hs
      exact ih u hu hs

theorem isName_of_entry {x : Tree} (h : x.Entry) {t : Token} (hkind : t.kind = .identifier)
    {id : Nat} {ancestors : List (Nat × Tree)} {s : Site} (hs : s ∈ preorder id ancestors x)
    (hchild : .leaf t ∈ s.node.children) : s.node.kind.isName = true := by
  cases h with
  | other h => exact isName_of_referring h hkind hs hchild
  | @rule head span ts _ _ hts =>
    rw [preorder] at hs
    rcases List.mem_cons.mp hs with rfl | hs
    · -- the head of a rule is in a node of its own
      rcases List.mem_cons.mp hchild with hhead | hchild
      · exact absurd hhead (by simp [Grammar.nameNode, Tree.branch])
      · cases (hts _ hchild).1 with
        | leaf hnot => exact absurd hkind hnot
    · obtain ⟨u, hu, id', hs⟩ := mem_preorderAll hs
      rcases List.mem_cons.mp hu with rfl | hu
      · exact isName_of_mem_nameNode hs hchild
      · exact isName_of_referring (hts u hu).1 hkind hs hchild

end Site

namespace SyntaxTree

variable {limit : Nat} {source : Text}

/-- A node that has a name as a child is a name node. -/
theorem isName_of_mem_sites {s : Site} (hs : s ∈ (parse limit source).sites) {t : Token}
    (hkind : t.kind = .identifier) (hchild : .leaf t ∈ s.node.children) :
    s.node.kind.isName = true := by
  rcases List.mem_cons.mp hs with rfl | hs
  · have hentry := Grammar.ruleList_entry limit hchild
    cases hentry with
    | other h =>
      cases h with
      | leaf hnot => exact absurd hkind hnot
  · obtain ⟨x, hx, id, hs⟩ := Site.mem_preorderAll hs
    exact Site.isName_of_entry (Grammar.ruleList_entry limit hx) hkind hs hchild

/-- A name node is that of a name of the text. -/
theorem exists_of_isName {s : Site} (hs : s ∈ (parse limit source).sites)
    (hname : s.node.kind.isName = true) :
    ∃ t ∈ Token.scan source, t.kind = .identifier ∧ s.node = Grammar.nameNode t := by
  have hclass := classified_root limit source
  have hof : ∀ {p : Token → Bool}, (∀ t, p t = true → t.kind = .identifier) →
      s.node ∈ ((Token.significant source).filter p).map Grammar.nameNode →
      ∃ t ∈ Token.scan source, t.kind = .identifier ∧ s.node = Grammar.nameNode t := by
    intro p hp hmem
    obtain ⟨t, ht, hnode⟩ := List.mem_map.mp hmem
    obtain ⟨ht, hpt⟩ := List.mem_filter.mp ht
    exact ⟨t, (List.mem_filter.mp ht).1, hp t hpt, hnode.symm⟩
  cases hrule : s.parent?.any (·.node.kind == .rule) with
  | true =>
    refine hof (fun t ht => Token.kind_of_isHead ht) ?_
    rw [← hclass.1]
    exact List.mem_map_of_mem (List.mem_filter.mpr ⟨hs, by rw [Site.isHead, hname, hrule]; rfl⟩)
  | false =>
    refine hof (p := Token.isUse) (fun t ht => beq_iff_eq.mp (Bool.and_eq_true_iff.mp ht).1) ?_
    rw [← hclass.2]
    exact List.mem_map_of_mem (List.mem_filter.mpr ⟨hs, by rw [Site.isReference, hname, hrule]; rfl⟩)

/-- The search for an offset in a token of the tree ends at this token. -/
theorem siteAt?_of_mem (limit : Nat) {t : Token} (ht : t ∈ Token.significant source) {offset : Nat}
    (h : t.span.contains offset = true) :
    ∃ s ∈ (parse limit source).sites, (parse limit source).siteAt? offset = some s ∧
      s.token? = some t := by
  have hroot : (parse limit source).root.span.contains offset = true := by
    have hstop := Token.stop_le_byteLength (List.mem_filter.mp ht).1
    rw [Span.contains_iff] at h ⊢
    exact ⟨Nat.zero_le _, Nat.lt_of_lt_of_le h.2 hstop⟩
  have hleaves := Grammar.leavesAll_ruleList limit (Token.significant source)
  have hsorted : (Tree.leavesAll
      ((Grammar.ruleList limit).read (Token.significant source)).1).Pairwise Token.Before := by
    rw [hleaves]
    exact Token.pairwise_significant source
  obtain ⟨s, hs, htoken⟩ := Site.aroundAny?_of_mem h
    (fun x hx => (Grammar.ruleList_placed limit hx).spansLeaves) hsorted (by rw [hleaves]; exact ht)
    (fun x hx hsorted hmem id =>
      Site.token?_around_placed h (Grammar.ruleList_placed limit hx) hsorted hmem id _) 1
  have haround : Site.around offset 0 [] (parse limit source).root = s := by
    rw [parse, Site.around, hs]
    rfl
  refine ⟨s, ?_, ?_, htoken⟩
  · rw [← haround]
    exact (Site.around_mem offset 0 [] _ hroot).1
  · rw [siteAt?, if_pos hroot, haround]

/-- What the search finds is the node of a name that contains the offset. -/
theorem exists_of_targetAt? {offset : Nat} {p : Site}
    (h : (parse limit source).targetAt? offset = some p) :
    p ∈ (parse limit source).sites ∧ ∃ t ∈ Token.scan source, t.kind = .identifier ∧
      t.span.contains offset = true ∧ p.node = Grammar.nameNode t := by
  obtain ⟨s, hs, htarget⟩ := Option.bind_eq_some_iff.mp h
  have hfound : s ∈ (parse limit source).sites ∧ s.node.span.contains offset = true := by
    rw [siteAt?] at hs
    split at hs
    · rw [← Option.some.inj hs]
      exact Site.around_mem offset 0 [] _ ‹_›
    · exact absurd hs (by simp)
  obtain ⟨hmem, hspan⟩ := hfound
  rw [Site.target?] at htarget
  split at htarget
  · -- the search has ended at a name node
    rename_i hname
    obtain rfl := Option.some.inj htarget
    obtain ⟨t, ht, hkind, hnode⟩ := exists_of_isName hmem hname
    rw [hnode] at hspan
    exact ⟨hmem, t, ht, hkind, hspan, hnode⟩
  · -- it has ended below one, at its only child
    obtain ⟨hparent, hname⟩ := Option.filter_eq_some_iff.mp htarget
    rcases Site.parent_of_mem_preorder 0 [] _ hmem with rfl | ⟨q, hq, hqp, hchild⟩
    · exact absurd hparent (by simp [Site.parent?])
    · obtain rfl := Option.some.inj (hqp.symm.trans hparent)
      obtain ⟨t, ht, hkind, hnode⟩ := exists_of_isName hq hname
      rw [hnode] at hchild
      rw [List.mem_singleton.mp hchild] at hspan
      exact ⟨hq, t, ht, hkind, hspan, hnode⟩

/-- An offset in a name has a target. -/
theorem exists_targetAt? (limit : Nat) {t : Token} (ht : t ∈ Token.scan source)
    (hkind : t.kind = .identifier) {offset : Nat} (h : t.span.contains offset = true) :
    ∃ p, (parse limit source).targetAt? offset = some p := by
  have hsig : t ∈ Token.significant source :=
    List.mem_filter.mpr ⟨ht, by rw [Token.isSignificant, hkind]; rfl⟩
  obtain ⟨s, hs, hsite, htoken⟩ := siteAt?_of_mem limit hsig h
  have hnode := Site.node_of_token? htoken
  have hleaf : s.node.kind.isName = false := by
    rw [hnode, Tree.kind, hkind]
    rfl
  rcases Site.parent_of_mem_preorder 0 [] _ hs with rfl | ⟨p, hp, hparent, hchild⟩
  · exact absurd hnode (by simp [parse])
  · rw [hnode] at hchild
    refine ⟨p, ?_⟩
    rw [targetAt?, hsite, Option.bind_some, Site.target?, if_neg (by rw [hleaf]; decide), hparent]
    exact Option.filter_eq_some_iff.mpr ⟨rfl, isName_of_mem_sites hp hkind hchild⟩

/-- The search from an offset in a name finds the node of this name. -/
theorem targetAt?_of_name (limit : Nat) {t : Token} (ht : t ∈ Token.scan source)
    (hkind : t.kind = .identifier) {offset : Nat} (h : t.span.contains offset = true) :
    ∃ s ∈ (parse limit source).sites, (parse limit source).targetAt? offset = some s ∧
      s.node = Grammar.nameNode t := by
  obtain ⟨s, hs⟩ := exists_targetAt? limit ht hkind h
  obtain ⟨hmem, u, hu, -, hspan, hnode⟩ := exists_of_targetAt? hs
  rw [Token.eq_of_contains hu ht hspan h] at hnode
  exact ⟨s, hmem, hs, hnode⟩

end SyntaxTree

/-- Names are found exactly.  An offset has a target iff it is in a name of the text.  The target is
then the node of this name, with the span and the text of the name, and the point of the offset has the
same target. -/
theorem targetAt?_iff_name (limit : Nat) (source : Text) (offset : Nat) :
    let tree := parse limit source
    ((tree.targetAt? offset).isSome = true ↔
        ∃ t ∈ Token.scan source, t.kind = .identifier ∧ t.span.contains offset = true) ∧
      ∀ t ∈ Token.scan source, t.kind = .identifier → t.span.contains offset = true →
        ∃ s ∈ tree.sites, tree.targetAt? offset = some s ∧ s.node.kind.isName = true ∧
          s.node.span = t.span ∧ tree.textOf s.node = t.text ∧
          tree.targetAtPoint? (source.pointOf offset) = some s := by
  intro tree
  refine ⟨⟨?_, ?_⟩, ?_⟩
  · intro h
    obtain ⟨p, hp⟩ := Option.isSome_iff_exists.mp h
    obtain ⟨-, t, ht, hkind, hspan, -⟩ := SyntaxTree.exists_of_targetAt? hp
    exact ⟨t, ht, hkind, hspan⟩
  · rintro ⟨t, ht, hkind, hspan⟩
    exact Option.isSome_iff_exists.mpr (SyntaxTree.exists_targetAt? limit ht hkind hspan)
  · intro t ht hkind hspan
    obtain ⟨s, hs⟩ := SyntaxTree.exists_targetAt? limit ht hkind hspan
    obtain ⟨hmem, u, hu, -, hspan', hnode⟩ := SyntaxTree.exists_of_targetAt? hs
    obtain rfl := Token.eq_of_contains hu ht hspan' hspan
    obtain ⟨before, c, after, htext, hc, hle, hlt⟩ := Token.exists_char_of_contains hu hspan
    have hbreak := Token.isRowBreak_of_mem_name hu hkind hc
    have hpoint : source.offsetOf? (source.pointOf offset) = some offset := by
      rw [htext]
      exact Text.offsetOf?_pointOf hbreak hle hlt
    refine ⟨s, hmem, hs, ?_, ?_, ?_, ?_⟩
    · rw [hnode]
      exact Site.isName_nameNode u
    · rw [hnode]
      exact span_nameNode u
    · rw [SyntaxTree.textOf, hnode, span_nameNode]
      exact Token.slice_span hu
    · show (source.offsetOf? (source.pointOf offset)).bind tree.targetAt? = some s
      rw [hpoint, Option.bind_some, hs]

/-- The last letter of a name in a row after a CRLF, in a group that is left open. -/
theorem targetAt?_iff_name_left_open :
    let source : Text := "a = b\r\n  (bc".toList
    let tree := parse 0 source
    let t : Token := ⟨.identifier, "bc".toList, 10, false⟩
    t ∈ Token.scan source ∧ t.span.contains 11 = true ∧ source.pointOf 11 = ⟨1, 4⟩ ∧
      ∃ s ∈ tree.sites, tree.targetAt? 11 = some s ∧ s.node.span = t.span ∧
        tree.targetAtPoint? ⟨1, 4⟩ = some s := by
  intro source tree t
  have ht : t ∈ Token.scan source := by decide +kernel
  have hspan : t.span.contains 11 = true := by decide
  have hpoint : source.pointOf 11 = ⟨1, 4⟩ := by decide
  obtain ⟨s, hs, htarget, -, hnode, -, hsame⟩ := (targetAt?_iff_name 0 source 11).2 t ht rfl hspan
  rw [hpoint] at hsame
  exact ⟨ht, hspan, hpoint, s, hs, htarget, hnode, hsame⟩

end Abnf
