/-
Offsets and positions in an editor.

An editor counts lines and, in a line, UTF-16 units.  A text that is cut into whole lines, a piece of a
line and a rest (`Text.LineCut`) has at the cut a position that can be read off the pieces: the number
of breaks in the lines, and the units of the piece (`Text.editorPositionOf_cut`).  On the way back this
position gives the length of the lines and the piece (`Text.editorOffsetOf?_cut`).  For that the piece
has to be part of the line that is searched, which loses a final LF before the search.  A cut between a
CR and an LF is inside of its line, so the LF that is lost comes after the piece there too.

Every offset between two characters is such a cut, so positions and offsets correspond, and in the same
order (`editor_positions_correspond`).
-/
import Abnf.Proofs.Nesting
import Abnf.Proofs.Rows
import Abnf.Text.Editor

namespace Abnf

/-! ### Lines -/

namespace Text

section

variable (isBreak : Char → Bool)

/-- The first line of a text, with its break. -/
def firstLine : Text → Text
  | [] => []
  | c :: cs => if endsLine isBreak c cs then [c] else c :: firstLine cs

theorem exists_firstLine_append (text : Text) : ∃ rest, text = firstLine isBreak text ++ rest := by
  induction text with
  | nil => exact ⟨[], rfl⟩
  | cons c cs ih =>
    obtain ⟨rest, hrest⟩ := ih
    rw [firstLine]
    split
    · exact ⟨cs, rfl⟩
    · exact ⟨rest, by rw [List.cons_append, ← hrest]⟩

/-- The next line starts where the first one ends; without a next line the text ends there. -/
theorem head?_breakEnds (offset : Nat) (text : Text) :
    (breakEnds isBreak offset text).head?.getD (offset + text.byteLength) =
      offset + (firstLine isBreak text).byteLength := by
  induction text generalizing offset with
  | nil => rfl
  | cons c cs ih =>
    rw [breakEnds, firstLine]
    split
    · rfl
    · rw [byteLength, ← Nat.add_assoc, ih, byteLength, Nat.add_assoc]

theorem firstLine_append {line rest : Text} (h : Unbroken isBreak line rest) :
    firstLine isBreak (line ++ rest) = line ++ firstLine isBreak rest := by
  induction line with
  | nil => rfl
  | cons c cs ih =>
    rw [List.cons_append, firstLine, if_neg (by rw [h.1]; decide), ih h.2]
    rfl

theorem firstLine_ne_nil {text : Text} (h : text ≠ []) : firstLine isBreak text ≠ [] := by
  cases text with
  | nil => exact absurd rfl h
  | cons c cs =>
    rw [firstLine]
    split <;> exact List.cons_ne_nil _ _

theorem length_breakEnds_le (offset : Nat) (text : Text) :
    (breakEnds isBreak offset text).length ≤ text.byteLength := by
  induction text generalizing offset with
  | nil => exact Nat.le_refl 0
  | cons c cs ih =>
    have hmore := ih (offset + c.utf8Size)
    have hpos := c.utf8Size_pos
    rw [breakEnds, byteLength]
    split
    · rw [List.length_cons]
      omega
    · omega

variable {isBreak}

/-- A piece that ends no line at the end of a text does not end with a break. -/
theorem Unbroken.getLast {line : Text} (h : Unbroken isBreak line []) {b : Char}
    (hb : line.getLast? = some b) : endsLine isBreak b [] = false := by
  induction line with
  | nil => exact absurd hb (by simp)
  | cons c cs ih =>
    cases cs with
    | nil =>
      rw [List.getLast?_singleton, Option.some.injEq] at hb
      rw [← hb]
      exact h.1
    | cons d cs =>
      rw [List.getLast?_cons_cons] at hb
      exact ih h.2 hb

/-- The line of a cut is that of the bytes before its rest. -/
theorem LineCut.lineAt {lines line rest : Text} (h : LineCut isBreak lines line rest) :
    lineAt isBreak (lines ++ (line ++ rest)) (lines.byteLength + line.byteLength) =
      ((breakEnds isBreak 0 lines).length, lines.byteLength) := by
  refine lineAt_append h.whole (Nat.le_add_right _ _) fun e he => ?_
  rw [breakEnds_unbroken isBreak h.piece] at he
  exact (lt_of_mem_breakEnds isBreak he).1

/-- The text from the start of a line to the start of the next one. -/
theorem slice_line {lines rest : Text} (h : EndsBefore isBreak lines rest) :
    slice (lines ++ rest) ⟨lines.byteLength,
      (lineStarts isBreak (lines ++ rest))[(breakEnds isBreak 0 lines).length + 1]?.getD
        (lines ++ rest).byteLength⟩ = firstLine isBreak rest := by
  obtain ⟨front, hlength, -, hstarts⟩ := lineStarts_append h
  have hnext : (lineStarts isBreak (lines ++ rest))[(breakEnds isBreak 0 lines).length + 1]? =
      (breakEnds isBreak lines.byteLength rest).head? := by
    rw [hstarts, ← hlength, List.getElem?_append_right (by omega), Nat.add_sub_cancel_left,
      List.getElem?_cons_succ, List.head?_eq_getElem?]
  -- the bytes between the two starts are those of the first line of the rest
  obtain ⟨more, hmore⟩ := exists_firstLine_append isBreak rest
  have hslice := slice_append lines (firstLine isBreak rest) more
  rw [← hmore] at hslice
  rw [hnext, byteLength_append, head?_breakEnds, hslice]

/-- Further on in a text there is a cut in the same line, which then goes on, or in a later one. -/
theorem LineCut.further {lines line mid rest : Text} (h : LineCut isBreak lines line (mid ++ rest)) :
    LineCut isBreak lines (line ++ mid) rest ∨
      ∃ lines' line', lines ++ (line ++ mid) = lines' ++ line' ∧ LineCut isBreak lines' line' rest ∧
        (breakEnds isBreak 0 lines).length < (breakEnds isBreak 0 lines').length := by
  obtain ⟨more, line', hmore, hwhole, hpiece⟩ := exists_lineCut isBreak (line ++ mid) rest
  have htext : line ++ (mid ++ rest) = more ++ (line' ++ rest) := by
    rw [← List.append_assoc, hmore, List.append_assoc]
  rcases List.eq_nil_or_concat more with rfl | ⟨front, b, hconcat⟩
  · -- no line ends before the second place
    rw [List.nil_append] at hmore htext
    refine Or.inl ⟨?_, by rw [hmore]; exact hpiece⟩
    rw [hmore, ← htext]
    exact h.whole
  · have hb : isBreak b = true := by
      refine (Bool.and_eq_true_iff.mp (hwhole b ?_)).1
      rw [hconcat]
      simp
    -- the breaks in the further lines are counted apart from those before
    have hcut : lines.getLast? = some '\r' → more.head? ≠ some '\n' := by
      intro hlast hhead
      refine h.whole.not_cut isBreak hlast ?_
      rw [htext, List.head?_append, hhead]
      rfl
    refine Or.inr ⟨lines ++ more, line', by rw [hmore, List.append_assoc], ⟨?_, hpiece⟩, ?_⟩
    · intro c hc
      refine hwhole c ?_
      rw [hconcat] at hc ⊢
      simpa using hc
    · obtain ⟨ends, hends⟩ := breakEnds_concat isBreak front hb (0 + lines.byteLength)
      rw [List.concat_eq_append] at hconcat
      rw [breakEnds_append isBreak lines hcut, List.length_append, hconcat, hends, List.length_append]
      exact Nat.lt_add_of_pos_right (by simp)

end

/-! ### Units -/

theorem utf16Size_pos (c : Char) : 0 < utf16Size c := by
  rw [utf16Size]
  split <;> decide

theorem utf16Length_append (s t : Text) : utf16Length (s ++ t) = utf16Length s + utf16Length t := by
  induction s with
  | nil => rw [List.nil_append, utf16Length, Nat.zero_add]
  | cons c cs ih => rw [List.cons_append, utf16Length, ih, utf16Length, Nat.add_assoc]

theorem utf16Length_pos {text : Text} (h : text ≠ []) : 0 < utf16Length text := by
  cases text with
  | nil => exact absurd rfl h
  | cons c cs => exact Nat.add_pos_left (utf16Size_pos c) _

theorem utf16Size_le (c : Char) : utf16Size c ≤ c.utf8Size := by
  have hpos := c.utf8Size_pos
  rw [utf16Size]
  split
  · omega
  · rename_i hlarge
    have hne : c.utf8Size ≠ 1 := by
      rw [Ne, Char.utf8Size_eq_one_iff, UInt32.le_iff_toNat_le]
      exact fun hle => hlarge (Nat.lt_of_le_of_lt hle (by decide))
    omega

theorem utf16Length_le (text : Text) : utf16Length text ≤ text.byteLength := by
  induction text with
  | nil => exact Nat.le_refl 0
  | cons c cs ih =>
    have hsize := utf16Size_le c
    rw [utf16Length, byteLength]
    omega

theorem takeUtf16_append (s t : Text) : takeUtf16 (utf16Length s) (s ++ t) = s := by
  induction s with
  | nil =>
    cases t with
    | nil => rfl
    | cons c cs =>
      have hpos := utf16Size_pos c
      rw [List.nil_append, takeUtf16, utf16Length, if_neg (by omega)]
  | cons c cs ih =>
    rw [List.cons_append, takeUtf16, utf16Length, if_pos (by omega), Nat.add_sub_cancel_left, ih]

/-! ### Positions -/

section

variable {lines line rest : Text} (h : LineCut isEditorBreak lines line rest)
include h

/-- The final LF of a line comes after every place in the line. -/
theorem exists_withoutFinalLineFeed :
    ∃ tail, withoutFinalLineFeed (line ++ firstLine isEditorBreak rest) = line ++ tail := by
  rw [withoutFinalLineFeed]
  split
  · rename_i hlast
    cases rest with
    | nil =>
      -- the piece is the last line, and an LF would end it
      rw [firstLine, List.append_nil] at hlast
      exact absurd (h.piece.getLast hlast) (by decide)
    | cons c cs =>
      rw [List.dropLast_append_of_ne_nil (firstLine_ne_nil _ (List.cons_ne_nil c cs))]
      exact ⟨_, rfl⟩
  · exact ⟨_, rfl⟩

/-- The position of a place is told by the lines before it and the piece of its line. -/
theorem editorPositionOf_cut {text : Text} {offset : Nat} (htext : text = lines ++ (line ++ rest))
    (hoffset : offset = byteLength (lines ++ line)) :
    text.editorPositionOf offset =
      ⟨(breakEnds isEditorBreak 0 lines).length, utf16Length line⟩ := by
  rw [byteLength_append] at hoffset
  have hmin : min offset text.byteLength = offset := by
    rw [htext, byteLength_append, byteLength_append]
    omega
  rw [editorPositionOf, hmin, htext, hoffset, h.lineAt]
  dsimp only
  rw [slice_append]

/-- The column of a place is not cut off at the end of the line. -/
theorem clampedPositionOf_cut {text : Text} {offset : Nat} (htext : text = lines ++ (line ++ rest))
    (hoffset : min offset text.byteLength = byteLength (lines ++ line)) :
    text.clampedPositionOf offset = ⟨(breakEnds isEditorBreak 0 lines).length, utf16Length line⟩ := by
  obtain ⟨tail, htail⟩ := exists_withoutFinalLineFeed h
  have hcount : takeBytes (byteLength (lines ++ line)) text = lines ++ line := by
    rw [htext, ← List.append_assoc, takeBytes_append]
  have htake : byteLength (text.take (lines ++ line).length) = lines.byteLength + line.byteLength := by
    rw [htext, ← List.append_assoc, List.take_left, byteLength_append]
  have hbefore : takeBytes lines.byteLength text = lines := by rw [htext, takeBytes_append]
  have hcolumn : (lines ++ line).length - lines.length = line.length := by
    rw [List.length_append, Nat.add_sub_cancel_left]
  rw [clampedPositionOf, hoffset, hcount, htake, htext, h.lineAt]
  dsimp only
  rw [← htext, hbefore, hcolumn, htext, slice_line h.whole, firstLine_append isEditorBreak h.piece, htail,
    List.length_append, Nat.min_eq_left (Nat.le_add_right _ _), List.take_left]

/-- The column of a place in a line is reached before the line ends. -/
theorem editorOffsetOf?_cut {text : Text} (htext : text = lines ++ (line ++ rest)) :
    text.editorOffsetOf? ⟨(breakEnds isEditorBreak 0 lines).length, utf16Length line⟩ =
      some (byteLength (lines ++ line)) := by
  obtain ⟨tail, htail⟩ := exists_withoutFinalLineFeed h
  rw [htext, editorOffsetOf?, getElem?_lineStarts h.whole, Option.map_some]
  dsimp only
  rw [slice_line h.whole, firstLine_append isEditorBreak h.piece, htail, takeUtf16_append,
    byteLength_append]

end

/-- Counting characters in a line that is cut off gives the position of every offset between two characters, and
of every offset past the end. -/
theorem clampedPositionOf_eq {text : Text} {offset : Nat} (h : text.IsBoundary (min offset text.byteLength)) :
    text.clampedPositionOf offset = text.editorPositionOf offset := by
  obtain ⟨before, rest, htext, hoffset⟩ := h
  obtain ⟨lines, line, rfl, hcut⟩ := exists_lineCut isEditorBreak before rest
  have hwhole : text = lines ++ (line ++ rest) := by rw [htext, List.append_assoc]
  have hclamped : text.editorPositionOf offset = text.editorPositionOf (min offset text.byteLength) := by
    rw [editorPositionOf, editorPositionOf, Nat.min_eq_left (Nat.min_le_right _ _)]
  rw [clampedPositionOf_cut hcut hwhole hoffset.symm, hclamped, editorPositionOf_cut hcut hwhole hoffset.symm]

/-- An offset between two characters is found again by its position. -/
theorem editorOffsetOf?_editorPositionOf {text : Text} {offset : Nat} (h : text.IsBoundary offset) :
    text.editorOffsetOf? (text.editorPositionOf offset) = some offset := by
  obtain ⟨before, rest, rfl, rfl⟩ := h
  obtain ⟨lines, line, rfl, hcut⟩ := exists_lineCut isEditorBreak before rest
  have htext : lines ++ line ++ rest = lines ++ (line ++ rest) := List.append_assoc _ _ _
  rw [editorPositionOf_cut hcut htext rfl, editorOffsetOf?_cut hcut htext]

/-- The line and the column of an offset are not larger than the offset. -/
theorem editorPositionOf_le {text : Text} {offset : Nat} (h : text.IsBoundary offset) :
    (text.editorPositionOf offset).line ≤ offset ∧
      (text.editorPositionOf offset).character ≤ offset := by
  obtain ⟨before, rest, rfl, rfl⟩ := h
  obtain ⟨lines, line, rfl, hcut⟩ := exists_lineCut isEditorBreak before rest
  have hline := length_breakEnds_le isEditorBreak 0 lines
  have hcharacter := utf16Length_le line
  rw [editorPositionOf_cut hcut (List.append_assoc _ _ _) rfl, byteLength_append]
  constructor
  · exact Nat.le_trans hline (Nat.le_add_right _ _)
  · exact Nat.le_trans hcharacter (Nat.le_add_left _ _)

end Text

/-- Whether a position comes before another one: in an earlier line, or in an earlier column of its line. -/
def EditorPosition.Precedes (p q : EditorPosition) : Prop :=
  p.line < q.line ∨ p.line = q.line ∧ p.character < q.character

namespace Text

/-- The text is cut at two boundaries of it, with something between them. -/
theorem IsBoundary.exists_append {text : Text} {o o' : Nat} (h : text.IsBoundary o)
    (h' : text.IsBoundary o') (hlt : o < o') :
    ∃ before mid rest, text = before ++ (mid ++ rest) ∧ mid ≠ [] ∧ before.byteLength = o ∧
      byteLength (before ++ mid) = o' := by
  obtain ⟨before, after, rfl, rfl⟩ := h
  obtain ⟨before', after', htext, rfl⟩ := h'
  rcases List.append_eq_append_iff.mp htext with ⟨mid, rfl, rfl⟩ | ⟨mid, rfl, rfl⟩
  · refine ⟨before, mid, after', rfl, ?_, rfl, rfl⟩
    rintro rfl
    rw [List.append_nil] at hlt
    exact absurd hlt (Nat.lt_irrefl _)
  · rw [byteLength_append] at hlt
    omega

theorem editorPositionOf_precedes {text : Text} {o o' : Nat} (h : text.IsBoundary o)
    (h' : text.IsBoundary o') (hlt : o < o') :
    (text.editorPositionOf o).Precedes (text.editorPositionOf o') := by
  obtain ⟨before, mid, rest, rfl, hne, rfl, rfl⟩ := h.exists_append h' hlt
  obtain ⟨lines, line, rfl, hcut⟩ := exists_lineCut isEditorBreak before (mid ++ rest)
  rw [editorPositionOf_cut hcut (List.append_assoc _ _ _) rfl]
  rcases hcut.further with hsame | ⟨lines', line', htext, hlater, hcount⟩
  · -- in the same line there are units between the two places
    rw [editorPositionOf_cut hsame (by simp) (by simp)]
    refine Or.inr ⟨rfl, ?_⟩
    rw [utf16Length_append]
    exact Nat.lt_add_of_pos_right (utf16Length_pos hne)
  · rw [editorPositionOf_cut hlater (by rw [← List.append_assoc lines' line', ← htext]; simp)
      (by rw [← htext]; simp)]
    exact Or.inl hcount

end Text

/-- Positions in an editor and offsets correspond.  Take a text of less than `2 ^ 32` bytes.  The position
of each offset between two of its characters, or at one of its ends, fits into 32 bits for the line and 32
bits for the column, and leads back to the offset.  A larger offset has a later position. -/
theorem editor_positions_correspond (text : Text) (hlength : text.byteLength < UInt32.size) :
    (∀ o, text.IsBoundary o →
      (text.editorPositionOf o).line < UInt32.size ∧ (text.editorPositionOf o).character < UInt32.size ∧
        text.editorOffsetOf? (text.editorPositionOf o) = some o) ∧
      ∀ o o', text.IsBoundary o → text.IsBoundary o' → o < o' →
        (text.editorPositionOf o).Precedes (text.editorPositionOf o') := by
  refine ⟨fun o ho => ?_, fun o o' ho ho' hlt => Text.editorPositionOf_precedes ho ho' hlt⟩
  obtain ⟨hline, hcharacter⟩ := Text.editorPositionOf_le ho
  have hle := ho.le
  exact ⟨by omega, by omega, Text.editorOffsetOf?_editorPositionOf ho⟩

/-- An offset between a CR and an LF, and one after a character of two units in the next line, which is
ended by a line separator. -/
theorem editor_positions_correspond_crlf :
    let text : Text := "é\r\n𝄞\u2028a".toList
    text.byteLength < UInt32.size ∧ text.IsBoundary 3 ∧ text.IsBoundary 8 ∧
      text.editorPositionOf 3 = ⟨0, 2⟩ ∧ text.editorPositionOf 8 = ⟨1, 2⟩ ∧
      text.editorOffsetOf? ⟨0, 2⟩ = some 3 ∧ text.editorOffsetOf? ⟨1, 2⟩ = some 8 ∧
      (text.editorPositionOf 3).Precedes (text.editorPositionOf 8) := by
  intro text
  have hlength : text.byteLength < UInt32.size := by decide
  have hreturn : text.IsBoundary 3 := ⟨"é\r".toList, "\n𝄞\u2028a".toList, rfl, rfl⟩
  have hclef : text.IsBoundary 8 := ⟨"é\r\n𝄞".toList, "\u2028a".toList, rfl, rfl⟩
  obtain ⟨hback, horder⟩ := editor_positions_correspond text hlength
  exact ⟨hlength, hreturn, hclef, by decide, by decide, (hback 3 hreturn).2.2, (hback 8 hclef).2.2,
    horder 3 8 hreturn hclef (by decide)⟩

end Abnf
