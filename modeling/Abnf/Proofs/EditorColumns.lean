/-
Columns past the end of a line.

An editor may ask for a column that a line does not have.  The column then means the end of the line
without its final LF.  So where the offset lies depends on how the line ends (`Text.firstLine_cases`):

* in the last line, and in a line that ends with an LF, the offset is in the line, also between the CR and
  the LF of a CRLF;
* another break is not cut off, so the offset after it is the start of the next line
  (`Text.Overrun`).

`clamped_column_exact` says that nothing else can happen, and `clamped_column_leaves_line` that the second
case does happen.
-/
import Abnf.Proofs.EditorPositions

namespace Abnf

namespace Text

section

variable (isBreak : Char → Bool)

theorem endsLine_nil (b : Char) : endsLine isBreak b [] = isBreak b := by
  simp [endsLine]

/-- The first line is the whole text, in which no line ends, or it ends with a break. -/
theorem firstLine_cases (text : Text) :
    firstLine isBreak text = text ∧ Unbroken isBreak text [] ∨
      ∃ front b rest, text = front ++ b :: rest ∧ firstLine isBreak text = front ++ [b] ∧
        Unbroken isBreak front (b :: rest) ∧ endsLine isBreak b rest = true := by
  induction text with
  | nil => exact Or.inl ⟨rfl, trivial⟩
  | cons c cs ih =>
    rw [firstLine]
    cases hc : endsLine isBreak c cs with
    | true => exact Or.inr ⟨[], c, cs, rfl, rfl, trivial, hc⟩
    | false =>
      rcases ih with ⟨hline, hpiece⟩ | ⟨front, b, rest, rfl, hline, hpiece, hb⟩
      · rw [hline]
        exact Or.inl ⟨rfl, by rwa [List.append_nil], hpiece⟩
      · rw [hline]
        exact Or.inr ⟨c :: front, b, rest, rfl, rfl, ⟨hc, hpiece⟩, hb⟩

theorem head?_firstLine (text : Text) : (firstLine isBreak text).head? = text.head? := by
  cases text with
  | nil => rfl
  | cons c cs =>
    rw [firstLine]
    split <;> rfl

/-- The first line holds the first break of a text. -/
theorem breakEnds_firstLine (offset : Nat) (text : Text) :
    breakEnds isBreak offset (firstLine isBreak text) = (breakEnds isBreak offset text).take 1 := by
  induction text generalizing offset with
  | nil => rfl
  | cons c cs ih =>
    rw [firstLine, breakEnds]
    cases hc : endsLine isBreak c cs with
    | true =>
      have hends : endsLine isBreak c [] = true := by
        rw [endsLine_nil, (Bool.and_eq_true_iff.mp hc).1]
      rw [if_pos rfl, if_pos rfl, breakEnds, hends]
      rfl
    | false =>
      have hends : endsLine isBreak c (firstLine isBreak cs) = false := by
        rw [endsLine, head?_firstLine]
        exact hc
      rw [if_neg (by decide), if_neg (by decide), breakEnds, hends]
      exact ih _

variable {isBreak}

theorem Unbroken.left {line more rest : Text} (h : Unbroken isBreak (line ++ more) rest) :
    Unbroken isBreak line (more ++ rest) := by
  induction line with
  | nil => trivial
  | cons c cs ih =>
    refine ⟨?_, ih h.2⟩
    rw [← List.append_assoc]
    exact h.1

end

/-! ### Units -/

theorem takeUtf16_isPrefix (n : Nat) (text : Text) : takeUtf16 n text <+: text := by
  induction text generalizing n with
  | nil => exact List.prefix_refl _
  | cons c cs ih =>
    rw [takeUtf16]
    split
    · exact List.cons_prefix_cons.mpr ⟨rfl, ih _⟩
    · exact List.nil_prefix

theorem utf16Length_takeUtf16_le (n : Nat) (text : Text) : utf16Length (takeUtf16 n text) ≤ n := by
  induction text generalizing n with
  | nil => exact Nat.zero_le n
  | cons c cs ih =>
    rw [takeUtf16]
    split
    · have hmore := ih (n - utf16Size c)
      rw [utf16Length]
      omega
    · exact Nat.zero_le n

theorem takeUtf16_of_le {n : Nat} {text : Text} (h : utf16Length text ≤ n) :
    takeUtf16 n text = text := by
  induction text generalizing n with
  | nil => rfl
  | cons c cs ih =>
    rw [utf16Length] at h
    rw [takeUtf16, if_pos (by omega), ih (by omega)]

/-- A column at the last character of a text, or before it, does not reach that character. -/
theorem takeUtf16_isPrefix_of_lt {n : Nat} {front : Text} {c : Char} (h : n < utf16Length (front ++ [c])) :
    takeUtf16 n (front ++ [c]) <+: front := by
  rcases List.prefix_concat_iff.mp (takeUtf16_isPrefix n (front ++ [c])) with hall | hprefix
  · have hle := utf16Length_takeUtf16_le n (front ++ [c])
    rw [hall] at hle
    omega
  · exact hprefix

/-! ### Lines of an editor -/

/-- A line of an editor with its break, if there is such a line. -/
def editorLine? (text : Text) (n : Nat) : Option Text :=
  let starts := lineStarts isEditorBreak text
  starts[n]?.map fun start => slice text ⟨start, starts[n + 1]?.getD (byteLength text)⟩

/-- Whether a column is past the break of a line that ends with a break other than an LF. -/
def Overrun (line : Text) (character : Nat) : Prop :=
  (∃ b, line.getLast? = some b ∧ isEditorBreak b = true ∧ b ≠ '\n') ∧ utf16Length line ≤ character

/-- The part of the first line of a text that a column reaches. -/
def reached (text : Text) (character : Nat) : Text :=
  takeUtf16 character (withoutFinalLineFeed (firstLine isEditorBreak text))

theorem withoutFinalLineFeed_concat (front : Text) (b : Char) :
    withoutFinalLineFeed (front ++ [b]) = if b = '\n' then front else front ++ [b] := by
  simp only [withoutFinalLineFeed, List.getLast?_concat, Option.some.injEq, List.dropLast_concat]

theorem overrun_concat_iff {front : Text} {b : Char} (hb : isEditorBreak b = true) {character : Nat} :
    Overrun (front ++ [b]) character ↔ b ≠ '\n' ∧ utf16Length (front ++ [b]) ≤ character := by
  simp [Overrun, hb]

/-- No break ends the last line. -/
theorem isEditorBreak_of_unbroken {line : Text} (h : Unbroken isEditorBreak line []) {b : Char}
    (hb : line.getLast? = some b) : isEditorBreak b = false := by
  rw [← endsLine_nil isEditorBreak b]
  exact h.getLast hb

section

variable {text : Text} {character : Nat}

/-- A column that overruns the first line reaches the whole line, with its only break. -/
theorem reached_of_overrun (h : (firstLine isEditorBreak text).Overrun character) :
    text.reached character = firstLine isEditorBreak text ∧
      (∀ start, (breakEnds isEditorBreak start (firstLine isEditorBreak text)).length = 1) ∧
      ∃ rest, text = firstLine isEditorBreak text ++ rest ∧
        EndsBefore isEditorBreak (firstLine isEditorBreak text) rest := by
  rcases firstLine_cases isEditorBreak text with
    ⟨hline, hpiece⟩ | ⟨front, b, rest, htext, hline, hpiece, hends⟩
  · obtain ⟨⟨b, hb, hbreak, -⟩, -⟩ := h
    rw [hline] at hb
    rw [isEditorBreak_of_unbroken hpiece hb] at hbreak
    exact absurd hbreak (by decide)
  · have hbreak : isEditorBreak b = true := (Bool.and_eq_true_iff.mp hends).1
    rw [hline, overrun_concat_iff hbreak] at h
    refine ⟨?_, fun start => ?_, rest, ?_, fun d hd => ?_⟩
    · rw [reached, hline, withoutFinalLineFeed_concat, if_neg h.1, takeUtf16_of_le h.2]
    · rw [breakEnds_firstLine, htext, breakEnds_unbroken isEditorBreak hpiece, breakEnds, hends]
      rfl
    · rw [hline, ← List.append_cons]
      exact htext
    · rw [hline, List.getLast?_concat, Option.some.injEq] at hd
      rw [← hd]
      exact hends

/-- A column that does not overrun the first line reaches a piece of it in which no line ends. -/
theorem reached_of_not_overrun (h : ¬(firstLine isEditorBreak text).Overrun character) :
    ∃ rest, text = text.reached character ++ rest ∧
      Unbroken isEditorBreak (text.reached character) rest := by
  -- it is enough that the column stays in front of the break
  have hinside : ∀ front rest, text = front ++ rest → Unbroken isEditorBreak front rest →
      text.reached character <+: front → ∃ rest, text = text.reached character ++ rest ∧
        Unbroken isEditorBreak (text.reached character) rest := by
    rintro front rest htext hpiece ⟨tail, hfront⟩
    rw [← hfront] at htext hpiece
    exact ⟨tail ++ rest, by rw [← List.append_assoc, ← htext], hpiece.left⟩
  rcases firstLine_cases isEditorBreak text with
    ⟨hline, hpiece⟩ | ⟨front, b, rest, htext, hline, hpiece, hends⟩
  · refine hinside text [] (List.append_nil _).symm hpiece ?_
    rw [reached, hline, withoutFinalLineFeed,
      if_neg fun hb => absurd (isEditorBreak_of_unbroken hpiece hb) (by decide)]
    exact takeUtf16_isPrefix _ _
  · refine hinside front (b :: rest) htext hpiece ?_
    rw [hline, overrun_concat_iff (Bool.and_eq_true_iff.mp hends).1] at h
    rw [reached, hline, withoutFinalLineFeed_concat]
    split
    · exact takeUtf16_isPrefix _ _
    · rename_i hfeed
      exact takeUtf16_isPrefix_of_lt (Nat.lt_of_not_le fun hle => h ⟨hfeed, hle⟩)

end

section

variable {lines rest : Text} (h : EndsBefore isEditorBreak lines rest)
include h

theorem editorLine?_append :
    (lines ++ rest).editorLine? (breakEnds isEditorBreak 0 lines).length =
      some (firstLine isEditorBreak rest) := by
  rw [editorLine?, getElem?_lineStarts h, Option.map_some]
  exact congrArg some (slice_line h)

theorem editorOffsetOf?_append (character : Nat) :
    (lines ++ rest).editorOffsetOf? ⟨(breakEnds isEditorBreak 0 lines).length, character⟩ =
      some (lines.byteLength + byteLength (rest.reached character)) := by
  rw [editorOffsetOf?, getElem?_lineStarts h, Option.map_some]
  dsimp only
  rw [slice_line h, reached]

/-- After a line with one break the next line starts. -/
theorem editorPositionOf_nextLine {line more : Text} {offset : Nat} (htext : rest = line ++ more)
    (hends : EndsBefore isEditorBreak line more)
    (hone : ∀ start, (breakEnds isEditorBreak start line).length = 1)
    (hoffset : offset = lines.byteLength + line.byteLength) :
    (lines ++ rest).editorPositionOf offset = ⟨(breakEnds isEditorBreak 0 lines).length + 1, 0⟩ := by
  subst htext
  have hne : line ≠ [] := by
    rintro rfl
    exact absurd (hone 0) (by decide)
  have hcut : LineCut isEditorBreak (lines ++ line) [] more := by
    refine ⟨fun b hb => hends b ?_, trivial⟩
    rwa [List.getLast?_append, List.getLast?_eq_some_getLast hne, Option.some_or,
      ← List.getLast?_eq_some_getLast hne] at hb
  have hapart : lines.getLast? = some '\r' → line.head? ≠ some '\n' := by
    intro hlast hhead
    refine h.not_cut isEditorBreak hlast ?_
    rw [List.head?_append, hhead]
    rfl
  rw [editorPositionOf_cut hcut (by simp) (by simp [hoffset, byteLength_append]),
    breakEnds_append isEditorBreak lines hapart, List.length_append, hone]
  rfl

end

/-- Lines before a line that exists. -/
theorem exists_lines_of_lt {text : Text} {n : Nat} (h : n < text.editorLineCount) :
    ∃ lines rest, text = lines ++ rest ∧ EndsBefore isEditorBreak lines rest ∧
      (breakEnds isEditorBreak 0 lines).length = n :=
  exists_lines_append isEditorBreak (Nat.le_of_lt_succ h)

theorem editorOffsetOf?_eq_none_iff {text : Text} {p : EditorPosition} :
    text.editorOffsetOf? p = none ↔ text.editorLineCount ≤ p.line := by
  rw [editorOffsetOf?, Option.map_eq_none_iff, List.getElem?_eq_none_iff, editorLineCount]

end Text

/-- Where a position leads.  There is no offset iff there is no such line.  Else the offset is on the line,
in a column that is not larger than the one asked for, unless that one is past the break of a line which
ends with a break other than an LF: then the offset is the start of the next line. -/
theorem clamped_column_exact (text : Text) (p : EditorPosition) :
    (text.editorOffsetOf? p = none ↔ text.editorLineCount ≤ p.line) ∧
      ∀ o, text.editorOffsetOf? p = some o → ∃ line, text.editorLine? p.line = some line ∧
        (¬line.Overrun p.character → (text.editorPositionOf o).line = p.line ∧
          (text.editorPositionOf o).character ≤ p.character) ∧
        (line.Overrun p.character → text.editorPositionOf o = ⟨p.line + 1, 0⟩) := by
  refine ⟨Text.editorOffsetOf?_eq_none_iff, fun o ho => ?_⟩
  obtain ⟨n, character⟩ := p
  have hlt : n < text.editorLineCount := by
    rw [← Nat.not_le, ← Text.editorOffsetOf?_eq_none_iff (p := ⟨n, character⟩), ho]
    exact fun hnone => by cases hnone
  obtain ⟨lines, rest, rfl, hwhole, rfl⟩ := Text.exists_lines_of_lt hlt
  rw [Text.editorOffsetOf?_append hwhole, Option.some.injEq] at ho
  refine ⟨_, Text.editorLine?_append hwhole, ?_⟩
  constructor
  · intro hnot
    obtain ⟨more, hrest, hpiece⟩ := Text.reached_of_not_overrun hnot
    have hcut : Text.LineCut Text.isEditorBreak lines _ more := ⟨hrest ▸ hwhole, hpiece⟩
    rw [Text.editorPositionOf_cut hcut (congrArg (lines ++ ·) hrest)
      (by rw [Text.byteLength_append, ho])]
    exact ⟨rfl, Text.utf16Length_takeUtf16_le _ _⟩
  · intro hover
    obtain ⟨hall, hone, more, hrest, hends⟩ := Text.reached_of_overrun hover
    rw [hall] at ho
    exact Text.editorPositionOf_nextLine hwhole hrest hends hone ho.symm

/-- A column past a comment that a CR ends leads to the rule in the next line: not every column stays on
its line. -/
theorem clamped_column_leaves_line :
    ¬∀ (text : Text) (p : EditorPosition),
      (text.editorOffsetOf? p = none ↔ text.editorLineCount ≤ p.line) ∧
        ∀ o, text.editorOffsetOf? p = some o → (text.editorPositionOf o).line = p.line ∧
          (text.editorPositionOf o).character ≤ p.character := by
  intro hstays
  have hoffset : Text.editorOffsetOf? "; note\rrule = \"x\"\r".toList ⟨0, 100⟩ = some 7 := by decide
  exact absurd ((hstays _ _).2 _ hoffset).1 (by decide)

end Abnf
