/-
Rows of a grammar and lines of an editor.

A grammar and an editor count lines apart: LF, CR and CRLF end a row of a grammar, and an editor ends its
lines with VT, FF, NEL, LS and PS, too.  At any place of a text the number of lines before it is the number
of rows before it and the number of these other breaks (`Text.breaksIn_editor`), since what ends a row ends
a line and the CR of a CRLF ends neither.  Before the first of the other breaks a row and a line are one
piece of text (`Text.LineCut.row`), so that there a column of an editor counts the units of the row.

`editor_line_of_row` compares the two at every place of a text.
-/
import Abnf.Proofs.EditorPositions

namespace Abnf

namespace Text

section

variable (isBreak : Char → Bool)

/-- The number of lines that end in a piece of text when a rest follows it. -/
def breaksIn : Text → Text → Nat
  | [], _ => 0
  | c :: cs, rest => (if endsLine isBreak c (cs ++ rest) then 1 else 0) + breaksIn cs rest

theorem length_breakEnds_append (s t : Text) (offset : Nat) :
    (breakEnds isBreak offset (s ++ t)).length =
      breaksIn isBreak s t + (breakEnds isBreak (offset + s.byteLength) t).length := by
  induction s generalizing offset with
  | nil => exact (Nat.zero_add _).symm
  | cons c cs ih =>
    rw [List.cons_append, breakEnds, breaksIn, byteLength, ← Nat.add_assoc, Nat.add_assoc, ← ih]
    split
    · rw [List.length_cons, Nat.add_comm]
    · exact (Nat.zero_add _).symm

variable {isBreak}

/-- The lines that end before a place are the whole lines before it. -/
theorem LineCut.breaksIn {lines line rest : Text} (h : LineCut isBreak lines line rest) :
    breaksIn isBreak (lines ++ line) rest = (breakEnds isBreak 0 lines).length := by
  have hcount := length_breakEnds_append isBreak (lines ++ line) rest 0
  have hends : breakEnds isBreak 0 (lines ++ line ++ rest) =
      breakEnds isBreak 0 lines ++ breakEnds isBreak (0 + byteLength (lines ++ line)) rest := by
    rw [List.append_assoc, breakEnds_append isBreak lines (h.whole.not_cut isBreak),
      breakEnds_unbroken isBreak h.piece, byteLength_append, Nat.add_assoc]
  rw [hends, List.length_append] at hcount
  exact (Nat.add_right_cancel hcount).symm

end

/-! ### Two classes of breaks -/

/-- The characters that end a line of an editor and no row of a grammar: VT, FF, NEL, LS and PS. -/
def isEditorOnlyBreak (c : Char) : Bool :=
  c == '\x0b' || c == '\x0c' || c == '\u0085' || c == '\u2028' || c == '\u2029'

theorem isEditorBreak_eq (c : Char) : isEditorBreak c = (isRowBreak c || isEditorOnlyBreak c) := by
  simp only [isEditorBreak, isRowBreak, isEditorOnlyBreak, Bool.or_assoc]

theorem isRowBreak_of_isEditorOnlyBreak {c : Char} (h : isEditorOnlyBreak c = true) :
    isRowBreak c = false := by
  simp only [isEditorOnlyBreak, Bool.or_eq_true, beq_iff_eq] at h
  rcases h with (((rfl | rfl) | rfl) | rfl) | rfl <;> rfl

/-- A character ends a line iff it ends a row or is one of the other breaks. -/
theorem endsLine_editor (c : Char) (rest : Text) :
    endsLine isEditorBreak c rest = (endsLine isRowBreak c rest || isEditorOnlyBreak c) := by
  cases h : isEditorOnlyBreak c with
  | true =>
    have hreturn : (c == '\r') = false := by
      rw [beq_eq_false_iff_ne]
      rintro rfl
      exact absurd h (by decide)
    rw [endsLine, isEditorBreak_eq, h, hreturn, Bool.or_true, Bool.or_true]
    rfl
  | false => rw [endsLine, isEditorBreak_eq, h, Bool.or_false, Bool.or_false, endsLine]

theorem breaksIn_editor (before rest : Text) :
    breaksIn isEditorBreak before rest =
      breaksIn isRowBreak before rest + before.countP isEditorOnlyBreak := by
  induction before with
  | nil => rfl
  | cons c cs ih =>
    rw [breaksIn, breaksIn, List.countP_cons, endsLine_editor, ih]
    cases h : isEditorOnlyBreak c with
    | true =>
      -- the line ends here and the row goes on
      have hrow : endsLine isRowBreak c (cs ++ rest) = false := by
        rw [endsLine, isRowBreak_of_isEditorOnlyBreak h]
        rfl
      rw [hrow]
      simp only [Bool.or_true, if_true, if_false, Bool.false_eq_true]
      omega
    | false =>
      simp only [Bool.or_false, if_false, Bool.false_eq_true]
      omega

theorem Unbroken.row {line rest : Text} (h : Unbroken isEditorBreak line rest) :
    Unbroken isRowBreak line rest := by
  induction line with
  | nil => trivial
  | cons c cs ih =>
    obtain ⟨hc, hcs⟩ := h
    rw [endsLine_editor, Bool.or_eq_false_iff] at hc
    exact ⟨hc.1, ih hcs⟩

/-- A place in a line of an editor is the same place in a row if there are no other breaks before it. -/
theorem LineCut.row {lines line rest : Text} (h : LineCut isEditorBreak lines line rest)
    (hnone : ∀ c ∈ lines, isEditorOnlyBreak c = false) : LineCut isRowBreak lines line rest := by
  refine ⟨fun b hb => ?_, h.piece.row⟩
  have hends := h.whole b hb
  rwa [endsLine_editor, hnone b (List.mem_of_getLast? hb), Bool.or_false] at hends

/-! ### Rows -/

section

variable {lines line rest : Text} (h : LineCut isRowBreak lines line rest)
include h

/-- The point of a place is told by the rows before it and the piece of its row. -/
theorem pointOf_cut {text : Text} {offset : Nat} (htext : text = lines ++ (line ++ rest))
    (hoffset : offset = byteLength (lines ++ line)) :
    text.pointOf offset = ⟨(breakEnds isRowBreak 0 lines).length, line.byteLength⟩ := by
  rw [byteLength_append] at hoffset
  have hmin : min offset text.byteLength = offset := by
    rw [htext, byteLength_append, byteLength_append]
    omega
  rw [pointOf, hmin, htext, hoffset, h.lineAt]
  dsimp only
  rw [Nat.add_sub_cancel_left]

/-- The first column of a row is its start. -/
theorem offsetOf?_cut {text : Text} (htext : text = lines ++ (line ++ rest)) :
    text.offsetOf? ⟨(breakEnds isRowBreak 0 lines).length, 0⟩ = some lines.byteLength := by
  rw [htext, offsetOf?, getElem?_lineStarts h.whole, Option.map_some]
  dsimp only
  rw [Nat.zero_min, Nat.add_zero]

end

end Text

/-- The line of an editor and the row of a grammar.  Take a text of less than `2 ^ 32` bytes and an offset
between two of its characters, or at one of its ends.  The position of the offset fits into 32 bits for the
line and 32 bits for the column.  Its line is the row of the offset and the number of VT, FF, NEL, LS and PS
that end at the offset or before it.  If there are none, its column counts the units of UTF-16 from the
start of the row up to the offset. -/
theorem editor_line_of_row (text : Text) (hlength : text.byteLength < UInt32.size) (o : Nat)
    (ho : text.IsBoundary o) :
    (text.editorPositionOf o).line < UInt32.size ∧ (text.editorPositionOf o).character < UInt32.size ∧
      (text.editorPositionOf o).line =
        (text.pointOf o).row + (text.takeBytes o).countP Text.isEditorOnlyBreak ∧
      ((text.takeBytes o).countP Text.isEditorOnlyBreak = 0 →
        ∃ start, text.offsetOf? ⟨(text.pointOf o).row, 0⟩ = some start ∧
          start + (text.pointOf o).column = o ∧
          (text.editorPositionOf o).character = Text.utf16Length (text.slice ⟨start, o⟩)) := by
  obtain ⟨hline, hcharacter⟩ := Text.editorPositionOf_le ho
  have hle := ho.le
  refine ⟨by omega, by omega, ?_⟩
  obtain ⟨before, rest, rfl, rfl⟩ := ho
  rw [Text.takeBytes_append]
  obtain ⟨lines, line, hbefore, hcut⟩ := Text.exists_lineCut Text.isEditorBreak before rest
  have htext : before ++ rest = lines ++ (line ++ rest) := by rw [hbefore, List.append_assoc]
  rw [Text.editorPositionOf_cut hcut htext (by rw [hbefore])]
  constructor
  · -- the row may start earlier than the line
    obtain ⟨rows, row, hbefore', hcut'⟩ := Text.exists_lineCut Text.isRowBreak before rest
    rw [Text.pointOf_cut hcut' (by rw [hbefore', List.append_assoc]) (by rw [hbefore']), ← hcut.breaksIn,
      ← hcut'.breaksIn, ← hbefore, ← hbefore']
    exact Text.breaksIn_editor before rest
  · intro hnone
    have hrow : Text.LineCut Text.isRowBreak lines line rest := by
      refine hcut.row fun c hc => ?_
      rw [List.countP_eq_zero, hbefore] at hnone
      exact Bool.eq_false_iff.mpr (hnone c (List.mem_append_left _ hc))
    rw [Text.pointOf_cut hrow htext (by rw [hbefore])]
    have hoffset : before.byteLength = lines.byteLength + line.byteLength := by
      rw [hbefore, Text.byteLength_append]
    refine ⟨lines.byteLength, Text.offsetOf?_cut hrow htext, hoffset.symm, ?_⟩
    rw [htext, hoffset, Text.slice_append]

/-- An offset after a character of two units in a row that a CRLF starts, and one in the same row after a
line separator. -/
theorem editor_line_of_row_separator :
    let text : Text := "é\r\n𝄞\u2028a".toList
    text.byteLength < UInt32.size ∧ text.IsBoundary 8 ∧ text.IsBoundary 12 ∧
      text.pointOf 8 = ⟨1, 4⟩ ∧ text.editorPositionOf 8 = ⟨1, 2⟩ ∧
      Text.utf16Length (text.slice ⟨4, 8⟩) = 2 ∧
      text.pointOf 12 = ⟨1, 8⟩ ∧ (text.editorPositionOf 12).line = 1 + 1 := by
  intro text
  have hlength : text.byteLength < UInt32.size := by decide
  have hclef : text.IsBoundary 8 := ⟨"é\r\n𝄞".toList, "\u2028a".toList, rfl, rfl⟩
  have hend : text.IsBoundary 12 := ⟨text, [], rfl, rfl⟩
  obtain ⟨-, -, -, hcolumn⟩ := editor_line_of_row text hlength 8 hclef
  obtain ⟨start, hstart, -, hunits⟩ := hcolumn (by decide)
  have hfour : some 4 = some start := hstart
  have hposition : text.editorPositionOf 8 = ⟨1, 2⟩ := by decide
  rw [hposition, ← Option.some.inj hfour] at hunits
  exact ⟨hlength, hclef, hend, by decide, hposition, hunits.symm, by decide,
    (editor_line_of_row text hlength 12 hend).2.2.1⟩

end Abnf
