/-
Spans that overlap.

Two spans overlap if each starts before the other one stops.  For spans with bytes this says that they have a
byte in common, and the greater of their starts is one (`Span.overlaps_iff_of_lt`).  A span without bytes has no
byte in common with any other, but it overlaps the spans that have bytes on both sides of it
(`Span.overlaps_iff_of_isEmpty`).  `overlaps_exact` says that there is no other difference between the two.

Trees have such spans: the empty body of a rule overlaps the root unless it stands at the end of the text.
-/
import Abnf.Proofs.Nesting

namespace Abnf

namespace Span

/-- Whether a byte belongs to two spans. -/
def ShareByte (s t : Span) : Prop := ∃ offset, s.contains offset = true ∧ t.contains offset = true

/-- Whether a span is without bytes and another one has bytes on both sides of it. -/
def IsInside (s t : Span) : Prop := s.isEmpty = true ∧ t.start < s.start ∧ s.start < t.stop

variable {s t : Span}

theorem overlaps_iff : s.overlaps t = true ↔ s.start < t.stop ∧ t.start < s.stop := by
  simp [overlaps]

theorem overlaps_comm (s t : Span) : s.overlaps t = t.overlaps s := Bool.and_comm _ _

theorem isEmpty_iff : s.isEmpty = true ↔ s.start = s.stop := beq_iff_eq

theorem ShareByte.symm (h : s.ShareByte t) : t.ShareByte s := by
  obtain ⟨offset, hs, ht⟩ := h
  exact ⟨offset, ht, hs⟩

/-- A byte that two spans have in common is after the start of each and before the stop of the other. -/
theorem ShareByte.overlaps (h : s.ShareByte t) : s.overlaps t = true := by
  obtain ⟨offset, hs, ht⟩ := h
  rw [contains_iff] at hs ht
  rw [overlaps_iff]
  omega

theorem ShareByte.isEmpty_eq_false (h : s.ShareByte t) : s.isEmpty = false := by
  obtain ⟨offset, hs, -⟩ := h
  rw [contains_iff] at hs
  rw [Bool.eq_false_iff]
  intro hempty
  rw [isEmpty_iff] at hempty
  omega

/-- Spans with bytes that overlap have the byte at the greater of their starts in common. -/
theorem overlaps_iff_of_lt (hs : s.start < s.stop) (ht : t.start < t.stop) :
    s.overlaps t = true ↔ s.ShareByte t := by
  refine ⟨fun h => ⟨max s.start t.start, ?_⟩, ShareByte.overlaps⟩
  rw [overlaps_iff] at h
  rw [contains_iff, contains_iff]
  omega

/-- A span without bytes overlaps those that have bytes on both sides of it. -/
theorem overlaps_iff_of_isEmpty (hs : s.isEmpty = true) : s.overlaps t = true ↔ s.IsInside t := by
  have hstop := isEmpty_iff.mp hs
  rw [overlaps_iff, IsInside, ← hstop]
  exact ⟨fun h => ⟨hs, h.2, h.1⟩, fun h => ⟨h.2.2, h.2.1⟩⟩

theorem isEmpty_or_lt (h : s.start ≤ s.stop) : s.isEmpty = true ∨ s.start < s.stop := by
  rw [isEmpty_iff]
  omega

/-- What it means that spans overlap. -/
theorem overlaps_iff_shareByte (hs : s.start ≤ s.stop) (ht : t.start ≤ t.stop) :
    s.overlaps t = true ↔ s.ShareByte t ∨ s.IsInside t ∨ t.IsInside s := by
  constructor
  · intro h
    rcases isEmpty_or_lt hs with hempty | hs
    · exact Or.inr (Or.inl ((overlaps_iff_of_isEmpty hempty).mp h))
    · rcases isEmpty_or_lt ht with hempty | ht
      · rw [overlaps_comm] at h
        exact Or.inr (Or.inr ((overlaps_iff_of_isEmpty hempty).mp h))
      · exact Or.inl ((overlaps_iff_of_lt hs ht).mp h)
  · rintro (h | h | h)
    · exact h.overlaps
    · exact (overlaps_iff_of_isEmpty h.1).mpr h
    · rw [overlaps_comm]
      exact (overlaps_iff_of_isEmpty h.1).mpr h

end Span

/-! ### Bodies of rules -/

/-- The empty body of a rule stands at the end of a token. -/
theorem exists_token_of_emptyBody {limit : Nat} {source : Text} {s : Site}
    (hs : s ∈ (parse limit source).sites) {span : Span} (hnode : s.node = .node .elements span []) :
    ∃ t ∈ Token.significant source, span = .empty t.span.stop := by
  rcases standing_of_mem_sites hs with rfl | hstanding
  · exact absurd (congrArg Tree.kind hnode) Kind.noConfusion
  · rw [hnode] at hstanding
    cases hstanding with
    | placed hplaced _ =>
      -- a tree with tokens is no node without children
      obtain ⟨first, _, hfirst, -⟩ := hplaced.spansLeaves
      exact absurd hfirst (Option.some_ne_none first).symm
    | empty ht => exact ⟨_, ht, rfl⟩

/-- Spans overlap iff they have a byte in common, or one of them is without bytes and has bytes of the other on
both sides; so to overlap is to share a byte where neither is inside of the other in this way, and only there.
Whether spans overlap does not depend on their order.  A span without bytes has no byte in common with anything;
the body of a rule that has no elements is of this sort, and it overlaps the root unless the text ends there. -/
theorem overlaps_exact (s t : Span) (hs : s.start ≤ s.stop) (ht : t.start ≤ t.stop) :
    (s.overlaps t = true ↔ s.ShareByte t ∨ s.IsInside t ∨ t.IsInside s) ∧
      ((s.overlaps t = true ↔ s.ShareByte t) ↔ ¬s.IsInside t ∧ ¬t.IsInside s) ∧
      (s.overlaps t = true ↔ t.overlaps s = true) ∧
      (s.isEmpty = true → ¬s.ShareByte t ∧ ¬t.ShareByte s) ∧
      ∀ limit source, ∀ site ∈ (parse limit source).sites, ∀ span, site.node = .node .elements span [] →
        span.isEmpty = true ∧ span.start ≤ source.byteLength ∧
          ((parse limit source).root.span.overlaps span = true ↔ span.start < source.byteLength) := by
  have hnot : ∀ {s t : Span}, s.isEmpty = true → ¬s.ShareByte t := by
    intro s t hempty h
    rw [h.isEmpty_eq_false] at hempty
    exact absurd hempty Bool.false_ne_true
  have hexact := Span.overlaps_iff_shareByte hs ht
  refine ⟨hexact, ?_, by rw [Span.overlaps_comm], fun hempty => ⟨hnot hempty, fun h => hnot hempty h.symm⟩, ?_⟩
  · constructor
    · intro hshare
      refine ⟨fun h => ?_, fun h => ?_⟩
      · exact hnot h.1 (hshare.mp (hexact.mpr (Or.inr (Or.inl h))))
      · exact hnot h.1 (hshare.mp (hexact.mpr (Or.inr (Or.inr h)))).symm
    · rintro ⟨hst, hts⟩
      rw [hexact]
      exact or_iff_left fun h => h.elim hst hts
  · intro limit source site hsite span hnode
    obtain ⟨t, ht, rfl⟩ := exists_token_of_emptyBody hsite hnode
    have hpos : 0 < t.span.stop := Nat.zero_lt_of_lt (Token.start_lt_stop ht)
    refine ⟨beq_self_eq_true _, (Token.isBoundary_of_mem ht).2.le, ?_⟩
    show Span.overlaps ⟨0, source.byteLength⟩ (.empty t.span.stop) = true ↔ _
    rw [Span.overlaps_iff]
    exact ⟨fun h => h.2, fun h => ⟨hpos, h⟩⟩

/-- Before the line break of a rule without elements, its body overlaps the root, in which it has no byte. -/
theorem overlaps_exact_before_break :
    let tree := parse 1 "a =\n".toList
    let body : Span := ⟨3, 3⟩
    (∃ s ∈ tree.sites, s.node = .node .elements body []) ∧ body.start < tree.source.byteLength ∧
      tree.root.span.overlaps body = true ∧ body.overlaps tree.root.span = true ∧
      body.IsInside tree.root.span ∧ ¬tree.root.span.ShareByte body := by
  intro tree body
  have hlast : (tree.sites.getLast?.map fun s =>
      (s.node.kind, s.node.span, s.node.children.length, s.token?.isSome)) =
        some (.elements, body, 0, false) := by decide +kernel
  obtain ⟨s, hs, hfields⟩ := Option.map_eq_some_iff.mp hlast
  have hmem := List.mem_of_getLast? hs
  have hnode : s.node = .node .elements body [] := by
    simp only [Prod.mk.injEq, Site.token?] at hfields
    revert hfields
    cases s.node with
    | leaf t => simp
    | node kind span children =>
      rintro ⟨rfl, rfl, hnil, -⟩
      rw [show children = [] from List.length_eq_zero_iff.mp hnil]
  obtain ⟨hexact, -, hcomm, hnot, hbodies⟩ :=
    overlaps_exact body tree.root.span (Nat.le_refl 3) (Nat.zero_le _)
  obtain ⟨hempty, -, hroot⟩ := hbodies 1 _ s hmem _ hnode
  have hlt : body.start < tree.source.byteLength := by decide
  have hoverlaps : tree.root.span.overlaps body = true := hroot.mpr hlt
  have hback := hcomm.mpr hoverlaps
  refine ⟨⟨s, hmem, hnode⟩, hlt, hoverlaps, hback, ?_, (hnot hempty).2⟩
  rcases hexact.mp hback with h | h | h
  · exact absurd h (hnot hempty).1
  · exact h
  · exact absurd h.1 (by decide)

/-- The spans of a root and of a body without elements overlap and have no byte in common: to overlap is not to
share a byte. -/
theorem overlaps_without_common_byte :
    ¬∀ s t : Span, s.start ≤ s.stop → t.start ≤ t.stop → s.stop < UInt64.size → t.stop < UInt64.size →
      (s.overlaps t = true ↔ ∃ offset, s.contains offset = true ∧ t.contains offset = true) ∧
        (s.isEmpty = true → s.overlaps t = false) := by
  intro hshare
  have hboth := hshare ⟨3, 3⟩ ⟨0, 4⟩ (by decide) (by decide) (by decide) (by decide)
  exact absurd (hboth.2 rfl) (by decide)

end Abnf
