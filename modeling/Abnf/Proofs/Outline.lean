/-
The outline of a document.

A symbol of an outline is a rule of the text with its head (`Index.exists_ruleAt_of_symbol`).  A rule starts
where its head does and does not stop before it (`Grammar.RuleAt.stop_le`), and a head that comes after the
head of a rule comes after the whole rule (`Grammar.RuleAt.span_stop_le`): it is not among the tokens of the
rule, since of these only the first one starts a line.  So the rules of an outline stand one after the other,
as their heads do.

All ends of spans are ends of tokens, and a later offset has a later position in the editor.  So what holds of
the spans holds of the ranges that an editor is told as well.
-/
import Abnf.Proofs.EditorPositions
import Abnf.Proofs.HoverBody
import Abnf.Proofs.RenameEdits
import Abnf.Server.Session

namespace Abnf

namespace Grammar.RuleAt

open Token

variable {limit : Nat} {us : List Token} {before : List Tree} {head : Token} {x : Tree} {source : Text}
  (h : RuleAt limit (significant source) before head us x)
include h

theorem head_mem : head ∈ x.leaves := by
  rw [h.leaves_eq]
  exact List.mem_append_left _ List.mem_cons_self

theorem mem_significant {t : Token} (ht : t ∈ x.leaves) : t ∈ significant source :=
  (h.mem_significant_iff rfl).mpr (Or.inr (Or.inl ht))

/-- A rule does not stop before one of its tokens does. -/
theorem stop_le {t : Token} (ht : t ∈ x.leaves) : t.span.stop ≤ x.span.stop := by
  obtain ⟨first, last, -, hlast, hspan⟩ := h.placed.spansLeaves
  rw [hspan]
  rcases before_or_eq_of_getLast? (h.sorted_leaves rfl) hlast ht with hbefore | rfl
  · have hle := hbefore.2
    have hlt := start_lt_stop (h.mem_significant (List.mem_of_getLast? hlast))
    exact Nat.le_trans hle (Nat.le_of_lt hlt)
  · exact Nat.le_refl _

theorem isBoundary : source.IsBoundary x.span.start ∧ source.IsBoundary x.span.stop := by
  obtain ⟨first, last, hfirst, hlast, hspan⟩ := h.placed.spansLeaves
  rw [hspan]
  exact ⟨(isBoundary_of_mem (h.mem_significant (List.mem_of_head? hfirst))).1,
    (isBoundary_of_mem (h.mem_significant (List.mem_of_getLast? hlast))).2⟩

/-- A rule stops before the next head. -/
theorem span_stop_le {next : Token} (hnext : next ∈ significant source) (hhead : next.isHead = true)
    (hlt : head.start < next.start) : x.span.stop ≤ next.start := by
  rcases (h.mem_significant_iff rfl).mp hnext with hmem | hmem | hmem
  · have hbefore := h.before_leaves rfl hmem h.head_mem
    have hstart := Nat.lt_of_lt_of_le hbefore.1 hbefore.2
    omega
  · -- of the tokens of the rule only its head starts a line
    have hcomment : next.isComment = false := by
      rw [Token.isComment, kind_of_isHead hhead]
      rfl
    have hrun : next ∈ withoutComments x.leaves := by
      refine List.mem_filter.mpr ⟨hmem, ?_⟩
      rw [hcomment]
      rfl
    rw [h.withoutComments_leaves] at hrun
    rcases List.mem_cons.mp hrun with rfl | hline
    · exact absurd hlt (Nat.lt_irrefl _)
    · have hnot := List.all_eq_true.mp List.all_takeWhile next hline
      rw [Token.isHead, Bool.and_eq_true] at hhead
      rw [isInLine, hhead.2] at hnot
      exact absurd hnot Bool.false_ne_true
  · obtain ⟨first, last, -, hlast, hspan⟩ := h.placed.spansLeaves
    rw [hspan]
    exact (h.before_rest rfl (List.mem_of_getLast? hlast) hmem).2

end Grammar.RuleAt

namespace Index

variable {document : String} {limit : Nat} {source : Text}

/-- The symbol of a definition. -/
def symbolOf (d : Definition) : RuleSymbol :=
  ⟨d.name, (d.rule?.getD d.head.node).span, d.head.node.span⟩

theorem symbols_eq_map (index : Index) : index.symbols = index.definitions.map symbolOf := rfl

/-- The heads of definitions stand one after the other. -/
theorem pairwise_head_start : (ofTree document (parse limit source)).definitions.Pairwise
    fun d d' => d.head.node.span.start < d'.head.node.span.start := by
  have hspans := congrArg (List.map Prod.snd) (map_definitions document limit source)
  rw [List.map_map, List.map_map] at hspans
  have hsorted : (((Token.names source).filter fun t =>
      t.atLineStart && !CoreRule.isName t.name).map Token.span).Pairwise fun s s' => s.start < s'.start := by
    refine List.pairwise_map.mpr (List.Pairwise.filter _ (List.Pairwise.filter _ ?_))
    exact (Token.pairwise_scanFrom 0 true source).imp fun hbefore =>
      Nat.lt_of_lt_of_le hbefore.1 hbefore.2
  rw [show ((Token.names source).filter _).map Token.span = _ from hspans.symm] at hsorted
  have hheads := List.pairwise_map.mp hsorted
  exact hheads

/-- A symbol is a rule of the text with its head. -/
theorem exists_ruleAt_of_symbol {d : Definition}
    (hd : d ∈ (ofTree document (parse limit source)).definitions) :
    ∃ before head us x, symbolOf d = ⟨d.name, x.span, head.span⟩ ∧
      Grammar.RuleAt limit (Token.significant source) before head us x := by
  obtain ⟨before, head, us, x, hrule, hnode, hat⟩ := exists_ruleAt_of_definition hd
  refine ⟨before, head, us, x, ?_, hat⟩
  rw [symbolOf, hrule, hnode, span_nameNode]
  rfl

/-- A symbol selects the start of its range. -/
theorem selection_of_mem_symbols {s : RuleSymbol} (hs : s ∈ (ofTree document (parse limit source)).symbols) :
    s.selection.start = s.range.start ∧ s.selection.start < s.selection.stop ∧
      s.selection.stop ≤ s.range.stop := by
  rw [symbols_eq_map] at hs
  obtain ⟨d, hd, rfl⟩ := List.mem_map.mp hs
  obtain ⟨before, head, us, x, hsymbol, hat⟩ := exists_ruleAt_of_symbol hd
  rw [hsymbol]
  refine ⟨hat.span_start.symm, ?_, hat.stop_le hat.head_mem⟩
  exact Token.start_lt_stop (hat.mem_significant hat.head_mem)

/-- The ends of a symbol are between characters of the text. -/
theorem isBoundary_of_mem_symbols {s : RuleSymbol}
    (hs : s ∈ (ofTree document (parse limit source)).symbols) :
    source.IsBoundary s.range.start ∧ source.IsBoundary s.range.stop ∧
      source.IsBoundary s.selection.start ∧ source.IsBoundary s.selection.stop := by
  rw [symbols_eq_map] at hs
  obtain ⟨d, hd, rfl⟩ := List.mem_map.mp hs
  obtain ⟨before, head, us, x, hsymbol, hat⟩ := exists_ruleAt_of_symbol hd
  rw [hsymbol]
  have hhead := Token.isBoundary_of_mem (hat.mem_significant hat.head_mem)
  exact ⟨hat.isBoundary.1, hat.isBoundary.2, hhead.1, hhead.2⟩

/-- The rules of an outline stand one after the other. -/
theorem pairwise_symbols : (ofTree document (parse limit source)).symbols.Pairwise
    fun s s' => s.range.Precedes s'.range := by
  rw [symbols_eq_map, List.pairwise_map]
  refine pairwise_head_start.imp_of_mem fun {d d'} hd hd' hlt => ?_
  obtain ⟨before, head, us, x, hsymbol, hat⟩ := exists_ruleAt_of_symbol hd
  obtain ⟨before', head', us', x', hsymbol', hat'⟩ := exists_ruleAt_of_symbol hd'
  have hselection : d.head.node.span = head.span := congrArg RuleSymbol.selection hsymbol
  have hselection' : d'.head.node.span = head'.span := congrArg RuleSymbol.selection hsymbol'
  rw [hselection, hselection'] at hlt
  have hle := hat.span_stop_le (hat'.mem_significant hat'.head_mem) hat'.isHead hlt
  rw [hsymbol, hsymbol']
  refine Span.precedes_of_le ?_ ?_
  · rw [hat.span_start, hat'.span_start]
    exact hlt
  · rw [hat'.span_start]
    exact hle

end Index

/-! ### Positions in an editor -/

/-- Whether a position comes before another one or is the same. -/
def EditorPosition.UpTo (p q : EditorPosition) : Prop := p = q ∨ p.Precedes q

theorem Text.editorPositionOf_upTo {text : Text} {o o' : Nat} (h : text.IsBoundary o)
    (h' : text.IsBoundary o') (hle : o ≤ o') :
    (text.editorPositionOf o).UpTo (text.editorPositionOf o') := by
  rcases Nat.eq_or_lt_of_le hle with rfl | hlt
  · exact Or.inl rfl
  · exact Or.inr (editorPositionOf_precedes h h' hlt)

/-- Whether a position can be told in 32 bits for the line and 32 bits for the column. -/
def EditorPosition.Fits (p : EditorPosition) : Prop := p.line < UInt32.size ∧ p.character < UInt32.size

theorem Text.fits_editorPositionOf {text : Text} (hlength : text.byteLength < UInt32.size) {o : Nat}
    (h : text.IsBoundary o) : (text.editorPositionOf o).Fits := by
  obtain ⟨hline, hcharacter⟩ := editorPositionOf_le h
  have hle := h.le
  exact ⟨by omega, by omega⟩

/-- The outline of a document is well formed.  There is one symbol for each definition, in the order of the
text.  Each symbol selects a part of its range that is not empty and starts where the range does, and the range
of a symbol comes after those of the symbols before it and has no byte in common with them.  If the text has
less than `2 ^ 32` bytes, the same holds of the lines and columns that an editor is told, which fit into 32
bits. -/
theorem outline_is_well_formed (document : String) (limit : Nat) (source : Text)
    (hlength : source.byteLength < UInt32.size) :
    let index := Index.ofTree document (parse limit source)
    index.symbols.map (fun s => (s.name, s.selection)) =
        index.definitions.map (fun d => (d.name, d.head.node.span)) ∧
      (∀ s ∈ index.symbols, s.selection.start = s.range.start ∧
        s.selection.start < s.selection.stop ∧ s.selection.stop ≤ s.range.stop) ∧
      (index.symbols.Pairwise fun s s' => s.range.Precedes s'.range) ∧
      (Session.symbolsOf index).map (·.name) = index.definitions.map (·.name) ∧
      (∀ s ∈ Session.symbolsOf index, s.selection.start = s.range.start ∧
        s.selection.start.Precedes s.selection.stop ∧ s.selection.stop.UpTo s.range.stop ∧
        s.range.start.Fits ∧ s.range.stop.Fits ∧ s.selection.start.Fits ∧ s.selection.stop.Fits) ∧
      (Session.symbolsOf index).Pairwise fun s s' =>
        s.range.start.Precedes s'.range.start ∧ s.range.stop.UpTo s'.range.start := by
  intro index
  refine ⟨?_, fun s hs => Index.selection_of_mem_symbols hs, Index.pairwise_symbols, ?_, ?_, ?_⟩
  · rw [Index.symbols_eq_map, List.map_map]
    rfl
  · rw [Session.symbolsOf, Index.symbols_eq_map, List.map_map, List.map_map]
    rfl
  · intro shown hshown
    obtain ⟨s, hs, rfl⟩ := List.mem_map.mp hshown
    obtain ⟨hstart, hlt, hle⟩ := Index.selection_of_mem_symbols hs
    obtain ⟨hrange, hrange', hselection, hselection'⟩ := Index.isBoundary_of_mem_symbols hs
    refine ⟨congrArg source.editorPositionOf hstart, ?_, ?_, ?_, ?_, ?_, ?_⟩
    · exact Text.editorPositionOf_precedes hselection hselection' hlt
    · exact Text.editorPositionOf_upTo hselection' hrange' hle
    all_goals exact Text.fits_editorPositionOf hlength ‹_›
  · refine List.pairwise_map.mpr (Index.pairwise_symbols.imp_of_mem fun {s s'} hs hs' hprecedes => ?_)
    obtain ⟨hrange, hrange', -, -⟩ := Index.isBoundary_of_mem_symbols hs
    obtain ⟨hnext, -, -, -⟩ := Index.isBoundary_of_mem_symbols hs'
    exact ⟨Text.editorPositionOf_precedes hrange hnext hprecedes.1,
      Text.editorPositionOf_upTo hrange' hnext hprecedes.2.1⟩

/-- Two rules, of which the first goes on in a second line and ends with a character of two units. -/
theorem outline_is_well_formed_two_lines :
    let source : Text := "a = b\r\n / \"𝄞\"\nBc =/ d".toList
    let index := Index.ofTree "grammar" (parse 0 source)
    source.byteLength < UInt32.size ∧
      index.symbols = [⟨"a", ⟨0, 16⟩, ⟨0, 1⟩⟩, ⟨"Bc", ⟨17, 24⟩, ⟨17, 19⟩⟩] ∧
      Session.symbolsOf index =
        [⟨"a", ⟨⟨0, 0⟩, ⟨1, 7⟩⟩, ⟨⟨0, 0⟩, ⟨0, 1⟩⟩⟩, ⟨"Bc", ⟨⟨2, 0⟩, ⟨2, 7⟩⟩, ⟨⟨2, 0⟩, ⟨2, 2⟩⟩⟩] ∧
      index.symbols.Pairwise fun s s' => s.range.Precedes s'.range := by
  intro source index
  have hlength : source.byteLength < UInt32.size := by decide
  obtain ⟨-, -, hpairwise, -⟩ := outline_is_well_formed "grammar" 0 source hlength
  exact ⟨hlength, by decide +kernel, by decide +kernel, hpairwise⟩

end Abnf
