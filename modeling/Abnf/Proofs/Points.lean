/-
Points and offsets.

The rows of a text are what stands between its breaks (`Text.rows`).  A row is found in the text by a cut into
the lines before it, the row itself and the rest, which starts with a break or is empty (`Text.RowCut`).  From
such a cut both conversions can be read off: a column is clamped to the bytes of the row
(`Text.RowCut.offsetOf?`), and an offset in the row has the row's number and the bytes before it
(`Text.RowCut.pointOf`).  The LF of a CRLF is the one offset that is in no row: it has a column after the end
of its row, and so comes back as the CR before it.

`points_and_offsets_convert` puts this together.  It also says that 64-bit words are enough to count with:
`Text.pointInWords?` and `Text.offsetInWords?` convert with sums and differences that fail where they leave
the words, and they never do.
-/
import Mathlib.Data.List.DropRight
import Abnf.Proofs.EditorPositions

namespace Abnf

namespace Text

/-! ### Rows -/

/-- The rows of a text without their breaks.  A CRLF is one break, and so are an LF or a CR alone. -/
def rows : Text → List Text
  | [] => [[]]
  | '\r' :: '\n' :: rest => [] :: rows rest
  | c :: rest => if isRowBreak c then [] :: rows rest else (rows rest).modifyHead (c :: ·)

/-- Whether an offset is that of the LF of a CRLF. -/
def InsideCrlf (text : Text) (offset : Nat) : Prop :=
  ∃ before after, text = before ++ '\r' :: '\n' :: after ∧ offset = before.byteLength + 1

/-- A break that ends no line is a CR before an LF. -/
theorem eq_crlf_of_not_endsLine {c : Char} {cs : Text} (hc : isRowBreak c = true)
    (hends : endsLine isRowBreak c cs = false) : c = '\r' ∧ ∃ rest, cs = '\n' :: rest := by
  rw [endsLine, hc, Bool.true_and, Bool.not_eq_false', Bool.and_eq_true, beq_iff_eq, beq_iff_eq] at hends
  obtain ⟨hreturn, hfeed⟩ := hends
  exact ⟨hreturn, List.head?_eq_some_iff.mp hfeed⟩

theorem endsLine_of_not_break {c : Char} (hc : isRowBreak c = false) (cs : Text) :
    endsLine isRowBreak c cs = false := by
  rw [endsLine, hc, Bool.false_and]

/-- A row does not start with an LF. -/
theorem head?_ne_lineFeed {row : Text} (h : ∀ c ∈ row, isRowBreak c = false) : row.head? ≠ some '\n' := by
  intro hfeed
  have hbreak := h '\n' (List.mem_of_mem_head? hfeed)
  exact absurd hbreak (by decide)

/-- A character ends a row, or it is a CR before an LF, or it is part of a row. -/
theorem rows_cons (c : Char) (cs : Text) :
    rows (c :: cs) =
      if endsLine isRowBreak c cs then [] :: rows cs
      else if isRowBreak c then rows cs
      else (rows cs).modifyHead (c :: ·) := by
  cases hc : isRowBreak c with
  | true =>
    cases hends : endsLine isRowBreak c cs with
    | true =>
      rw [if_pos rfl, rows, if_pos hc]
      -- a CR before an LF ends no line
      rintro rest rfl rfl
      cases hends
    | false =>
      obtain ⟨rfl, rest, rfl⟩ := eq_crlf_of_not_endsLine hc hends
      rfl
  | false =>
    rw [endsLine_of_not_break hc, if_neg Bool.false_ne_true, if_neg Bool.false_ne_true, rows,
      if_neg (by rw [hc]; exact Bool.false_ne_true)]
    rintro rest rfl rfl
    cases hc

/-- There is one row more than there are breaks. -/
theorem length_rows (offset : Nat) (text : Text) :
    (rows text).length = (breakEnds isRowBreak offset text).length + 1 := by
  induction text generalizing offset with
  | nil => rfl
  | cons c cs ih =>
    rw [rows_cons, breakEnds]
    split
    · rw [List.length_cons, List.length_cons, ih]
    · split
      · exact ih _
      · rw [List.length_modifyHead]
        exact ih _

theorem getElem?_lineStarts_eq_none_iff {text : Text} {r : Nat} :
    (lineStarts isRowBreak text)[r]? = none ↔ (rows text).length ≤ r := by
  rw [List.getElem?_eq_none_iff, lineStarts, List.length_cons, length_rows 0]

/-- The first row goes up to the first break. -/
theorem head?_rows (text : Text) : (rows text).head? = some (text.takeWhile (!isRowBreak ·)) := by
  induction text with
  | nil => rfl
  | cons c cs ih =>
    rw [rows_cons]
    cases hc : isRowBreak c with
    | true =>
      rw [List.takeWhile_cons_of_neg (by rw [hc]; decide)]
      split
      · rfl
      · rename_i hends
        obtain ⟨-, rest, rfl⟩ := eq_crlf_of_not_endsLine hc (Bool.eq_false_iff.mpr hends)
        rw [if_pos rfl, ih]
        rfl
    | false =>
      rw [endsLine_of_not_break hc, List.takeWhile_cons_of_pos (by rw [hc]; rfl)]
      simp [List.head?_modifyHead, ih]

/-- The rows of whole lines and a rest are those of the lines and those of the rest. -/
theorem rows_append {lines rest : Text} (h : EndsBefore isRowBreak lines rest) :
    ∃ front, front.length = (breakEnds isRowBreak 0 lines).length ∧
      rows (lines ++ rest) = front ++ rows rest := by
  have hfront : ∃ front, (lines ≠ [] → front ≠ []) ∧ rows (lines ++ rest) = front ++ rows rest := by
    induction lines with
    | nil => exact ⟨[], fun hne => absurd rfl hne, rfl⟩
    | cons c cs ih =>
      rw [List.cons_append, rows_cons]
      cases cs with
      | nil => exact ⟨[[]], fun _ => List.cons_ne_nil _ _, if_pos (h c rfl)⟩
      | cons d ds =>
        have hmore : EndsBefore isRowBreak (d :: ds) rest :=
          fun b hb => h b (by rwa [List.getLast?_cons_cons])
        obtain ⟨front, hne, hrows⟩ := ih hmore
        -- the first row of these lines may go on to the left
        obtain ⟨row, front, rfl⟩ := List.exists_cons_of_ne_nil (hne (List.cons_ne_nil _ _))
        rw [hrows]
        split
        · exact ⟨[] :: row :: front, fun _ => List.cons_ne_nil _ _, rfl⟩
        · split
          · exact ⟨row :: front, fun _ => List.cons_ne_nil _ _, rfl⟩
          · exact ⟨(c :: row) :: front, fun _ => List.cons_ne_nil _ _, rfl⟩
  obtain ⟨front, -, hrows⟩ := hfront
  refine ⟨front, ?_, hrows⟩
  have hlength := congrArg List.length hrows
  rw [List.length_append, length_rows 0, length_rows (0 + lines.byteLength),
    breakEnds_append isRowBreak lines (h.not_cut isRowBreak), List.length_append] at hlength
  omega

/-! ### Rows in a text -/

/-- The whole lines before a row, the row without its break, and the rest, which starts with the break of the
row if it has one. -/
structure RowCut (lines row rest : Text) : Prop where
  whole : EndsBefore isRowBreak lines (row ++ rest)
  plain : ∀ c ∈ row, isRowBreak c = false
  ends : ∀ c, rest.head? = some c → isRowBreak c = true

/-- A row goes on from a piece of it up to the next break. -/
theorem RowCut.of_piece {lines piece rest : Text} (hwhole : EndsBefore isRowBreak lines (piece ++ rest))
    (hpiece : ∀ c ∈ piece, isRowBreak c = false) :
    RowCut lines (piece ++ rest.takeWhile (!isRowBreak ·)) (rest.dropWhile (!isRowBreak ·)) where
  whole := by rwa [List.append_assoc, List.takeWhile_append_dropWhile]
  plain := by
    intro c hc
    rcases List.mem_append.mp hc with hc | hc
    · exact hpiece c hc
    · simpa using List.mem_takeWhile_imp hc
  ends := by
    intro c hc
    simpa [hc] using List.head?_dropWhile_not (!isRowBreak ·) rest

/-- Whole lines may be followed by anything but an LF after their CR. -/
theorem EndsLine.endsBefore_of_not_cut {text rest : Text} (h : EndsLine isRowBreak text)
    (hcut : text.getLast? = some '\r' → rest.head? ≠ some '\n') : EndsBefore isRowBreak text rest := by
  intro b hb
  rw [endsLine, h b hb]
  by_cases hreturn : b = '\r'
  · rw [hreturn] at hb
    simp [hcut hb]
  · simp [hreturn]

/-- Every row of a text is found by a cut. -/
theorem exists_rowCut {text : Text} {r : Nat} (h : r < (rows text).length) :
    ∃ lines row rest, text = lines ++ (row ++ rest) ∧ RowCut lines row rest ∧
      (breakEnds isRowBreak 0 lines).length = r ∧ (rows text)[r]? = some row := by
  rw [length_rows 0, Nat.lt_succ_iff] at h
  obtain ⟨lines, rest, rfl, hwhole, rfl⟩ := exists_lines_append isRowBreak h
  obtain ⟨front, hlength, hrows⟩ := rows_append hwhole
  refine ⟨lines, rest.takeWhile (!isRowBreak ·), rest.dropWhile (!isRowBreak ·), ?_,
    @RowCut.of_piece lines [] rest hwhole (by simp), rfl, ?_⟩
  · rw [List.takeWhile_append_dropWhile]
  · rw [hrows, ← hlength, List.getElem?_append_right (Nat.le_refl _), Nat.sub_self,
      ← List.head?_eq_getElem?, head?_rows]

/-- An offset is that of the LF of a CRLF, or it is in a row or at its end. -/
theorem exists_rowCut_of_le {text : Text} {m : Nat} (h : m ≤ text.byteLength) :
    text.InsideCrlf m ∨ ∃ lines row rest k, text = lines ++ (row ++ rest) ∧ RowCut lines row rest ∧
      m = lines.byteLength + k ∧ k ≤ row.byteLength := by
  -- the characters before the offset are followed by bytes of its row up to it
  have hsplit : ∃ before rest, text = before ++ rest ∧ before.byteLength ≤ m ∧
      m ≤ before.byteLength + byteLength (rest.takeWhile (!isRowBreak ·)) := by
    rcases Nat.lt_or_eq_of_le h with hlt | rfl
    · obtain ⟨before, c, after, htext, -, hle, hbyte⟩ := exists_charAt? hlt
      refine ⟨before, c :: after, htext, hle, ?_⟩
      cases hc : isRowBreak c with
      | true =>
        have hsize : c.utf8Size = 1 := by
          simp only [isRowBreak, Bool.or_eq_true, beq_iff_eq] at hc
          rcases hc with rfl | rfl <;> rfl
        omega
      | false =>
        rw [List.takeWhile_cons_of_pos (by rw [hc]; rfl), byteLength]
        omega
    · exact ⟨text, [], (List.append_nil text).symm, Nat.le_refl _, Nat.le_add_right _ _⟩
  obtain ⟨before, rest, rfl, hle, hrow⟩ := hsplit
  obtain ⟨lines, piece, rfl, hlines, hpiece⟩ := exists_lastLine isRowBreak before
  rw [byteLength_append] at hle hrow
  by_cases hcut : lines.getLast? = some '\r' ∧ (piece ++ rest).head? = some '\n'
  · obtain ⟨hreturn, hfeed⟩ := hcut
    obtain ⟨front, rfl⟩ := List.getLast?_eq_some_iff.mp hreturn
    obtain ⟨more, hmore⟩ := List.head?_eq_some_iff.mp hfeed
    cases piece with
    | nil =>
      -- the offset is that of the LF itself
      rw [List.nil_append] at hmore
      have hfront : byteLength (front ++ ['\r']) = byteLength front + 1 := byteLength_append _ _
      rw [hmore, List.takeWhile_cons_of_neg (by decide)] at hrow
      rw [byteLength] at hle hrow
      refine Or.inl ⟨front, more, by rw [hmore]; simp, ?_⟩
      rw [← hfront]
      exact Nat.le_antisymm hrow hle
    | cons d ds =>
      exact (head?_ne_lineFeed hpiece hfeed).elim
  · have hwhole := hlines.endsBefore_of_not_cut fun hreturn hfeed => hcut ⟨hreturn, hfeed⟩
    refine Or.inr ⟨lines, _, _, m - lines.byteLength, ?_, RowCut.of_piece hwhole hpiece, by omega, ?_⟩
    · rw [List.append_assoc, List.append_assoc, List.takeWhile_append_dropWhile]
    · rw [byteLength_append]
      omega

/-- Before a CRLF there is a row, which may be empty. -/
theorem InsideCrlf.exists_rowCut {text : Text} {m : Nat} (h : text.InsideCrlf m) :
    ∃ lines row more, text = lines ++ (row ++ '\r' :: '\n' :: more) ∧
      RowCut lines row ('\r' :: '\n' :: more) ∧ m = lines.byteLength + (row.byteLength + 1) := by
  obtain ⟨before, after, rfl, rfl⟩ := h
  obtain ⟨lines, row, rfl, hlines, hrow⟩ := exists_lastLine isRowBreak before
  refine ⟨lines, row, after, List.append_assoc _ _ _, ⟨?_, hrow, ?_⟩, ?_⟩
  · refine hlines.endsBefore isRowBreak fun hfeed => ?_
    cases row with
    | nil => exact absurd (Option.some.inj hfeed) (by decide)
    | cons d ds => exact (head?_ne_lineFeed hrow hfeed).elim
  · intro c hc
    rw [← Option.some.inj hc]
    rfl
  · rw [byteLength_append, Nat.add_assoc]

/-! ### Points and offsets of a row -/

theorem pointOf_min (text : Text) (offset : Nat) :
    text.pointOf (min offset text.byteLength) = text.pointOf offset := by
  rw [pointOf, pointOf, Nat.min_eq_left (Nat.min_le_right _ _)]

/-- An offset before the next break is in the row that starts after whole lines. -/
theorem pointOf_append {lines rest : Text} (hwhole : EndsBefore isRowBreak lines rest) {k : Nat}
    (hk : k ≤ rest.byteLength)
    (hlater : ∀ e ∈ breakEnds isRowBreak lines.byteLength rest, lines.byteLength + k < e) :
    pointOf (lines ++ rest) (lines.byteLength + k) = ⟨(breakEnds isRowBreak 0 lines).length, k⟩ := by
  have hmin : min (lines.byteLength + k) (byteLength (lines ++ rest)) = lines.byteLength + k := by
    rw [byteLength_append]
    omega
  rw [pointOf, hmin, lineAt_append hwhole (Nat.le_add_right _ _) hlater]
  exact congrArg _ (Nat.add_sub_cancel_left ..)

namespace RowCut

variable {lines row rest text : Text} (h : RowCut lines row rest) (htext : text = lines ++ (row ++ rest))
include h

theorem takeWhile_append : (row ++ rest).takeWhile (!isRowBreak ·) = row := by
  have hpos : ∀ c ∈ row, (!isRowBreak c) = true := by
    intro c hc
    rw [h.plain c hc]
    rfl
  rw [List.takeWhile_append_of_pos hpos]
  cases rest with
  | nil => exact List.append_nil row
  | cons b more => rw [List.takeWhile_cons_of_neg (by rw [h.ends b rfl]; decide), List.append_nil]

include htext

/-- A column past the end of a row means its end. -/
theorem offsetOf? (column : Nat) :
    text.offsetOf? ⟨(breakEnds isRowBreak 0 lines).length, column⟩ =
      some (lines.byteLength + min column row.byteLength) := by
  rw [htext, Text.offsetOf?, getElem?_lineStarts h.whole, Option.map_some, dropBytes_append,
    h.takeWhile_append]

theorem pointOf {k : Nat} (hk : k ≤ row.byteLength) :
    text.pointOf (lines.byteLength + k) = ⟨(breakEnds isRowBreak 0 lines).length, k⟩ := by
  rw [htext]
  refine pointOf_append h.whole (by rw [byteLength_append]; omega) fun e he => ?_
  rw [breakEnds_unbroken isRowBreak (unbroken_of_forall isRowBreak h.plain _)] at he
  have hlt := (lt_of_mem_breakEnds isRowBreak he).1
  omega

/-- The LF of a CRLF has the column after that of the CR. -/
theorem pointOf_crlf {more : Text} (hrest : rest = '\r' :: '\n' :: more) :
    text.pointOf (lines.byteLength + (row.byteLength + 1)) =
      ⟨(breakEnds isRowBreak 0 lines).length, row.byteLength + 1⟩ := by
  have hsize : rest.byteLength = 1 + (1 + more.byteLength) := by
    rw [hrest]
    rfl
  rw [htext]
  refine pointOf_append h.whole (by rw [byteLength_append]; omega) fun e he => ?_
  rw [breakEnds_unbroken isRowBreak (unbroken_of_forall isRowBreak h.plain _), hrest] at he
  -- no line ends with the CR, and so the next break is after the LF
  have hnext : e ∈ breakEnds isRowBreak (lines.byteLength + row.byteLength + 1) ('\n' :: more) := he
  have hlt := (lt_of_mem_breakEnds isRowBreak hnext).1
  omega

end RowCut

end Text

/-! ### Counting with words -/

namespace Word

/-- The sum of two words, if it is a word of 64 bits. -/
def add? (a b : Nat) : Option Nat := if a + b < UInt64.size then some (a + b) else none

/-- The difference of two words, if it is not negative. -/
def sub? (a b : Nat) : Option Nat := if b ≤ a then some (a - b) else none

/-- The sum of two words, or the greatest word if the sum is greater. -/
def addUpToMax (a b : Nat) : Nat := min (a + b) (UInt64.size - 1)

end Word

namespace Text

/-- The point of an offset, counted with words; none if the row has no start or a difference is negative. -/
def pointInWords? (text : Text) (offset : Nat) : Option Point := do
  let offset := min offset text.byteLength
  let row := ((lineStarts isRowBreak text).takeWhile (· ≤ offset)).length - 1
  let start ← (lineStarts isRowBreak text)[row]?
  let column ← Word.sub? offset start
  return ⟨row, column⟩

/-- The end of a row, counted with words: the breaks at its end are cut off, and the last row has none. -/
def rowStopInWords? (text : Text) (row start : Nat) : Option Nat := do
  let next ← Word.add? row 1
  match (lineStarts isRowBreak text)[next]? with
  | some stop => Word.add? start (byteLength ((text.slice ⟨start, stop⟩).rdropWhile isRowBreak))
  | none => return text.byteLength

/-- The offset of a point, counted with words; none if a sum is no word. -/
def offsetInWords? (text : Text) (p : Point) : Option (Option Nat) :=
  match (lineStarts isRowBreak text)[p.row]? with
  | none => some none
  | some start => (text.rowStopInWords? p.row start).map fun stop =>
      some (min (Word.addUpToMax start p.column) stop)

/-- The row of an offset starts at the last of the starts up to it. -/
theorem getElem?_lineAt (text : Text) (offset : Nat) :
    (lineStarts isRowBreak text)[(lineAt isRowBreak text offset).1]? =
        some (lineAt isRowBreak text offset).2 ∧
      (lineAt isRowBreak text offset).2 ≤ offset := by
  have hne : (lineStarts isRowBreak text).takeWhile (· ≤ offset) ≠ [] := by
    rw [lineStarts, List.takeWhile_cons_of_pos (by simp)]
    exact List.cons_ne_nil _ _
  obtain ⟨later, hlater⟩ := List.takeWhile_prefix (· ≤ offset) (l := lineStarts isRowBreak text)
  generalize hstarts : (lineStarts isRowBreak text).takeWhile (· ≤ offset) = starts at hne hlater
  have hlast := List.getLast?_eq_some_getLast hne
  have hline : lineAt isRowBreak text offset = (starts.length - 1, starts.getLast hne) := by
    simp only [lineAt, hstarts, List.getLastD_eq_getLast?, hlast, Option.getD_some]
  rw [hline]
  constructor
  · have hlt : starts.length - 1 < starts.length := by
      have hpos := List.length_pos_iff.mpr hne
      omega
    rw [← hlater, List.getElem?_append_left hlt, ← List.getLast?_eq_getElem?, hlast]
  · have hmem : starts.getLast hne ∈ (lineStarts isRowBreak text).takeWhile (· ≤ offset) := by
      rw [hstarts]
      exact List.getLast_mem hne
    simpa using List.mem_takeWhile_imp hmem

theorem pointInWords?_eq (text : Text) (offset : Nat) :
    text.pointInWords? offset = some (text.pointOf offset) := by
  obtain ⟨hstart, hle⟩ := getElem?_lineAt text (min offset text.byteLength)
  show (lineStarts isRowBreak text)[(lineAt isRowBreak text (min offset text.byteLength)).1]?.bind _ = _
  rw [hstart, Option.bind_some, Word.sub?, if_pos hle]
  rfl

/-- The break of a row is all that is cut off its end. -/
theorem RowCut.rdropWhile_firstLine {lines row rest : Text} (h : RowCut lines row rest) :
    (firstLine isRowBreak (row ++ rest)).rdropWhile isRowBreak = row := by
  have hbreak : ∀ c ∈ firstLine isRowBreak rest, isRowBreak c = true := by
    cases rest with
    | nil => exact fun c hc => absurd hc List.not_mem_nil
    | cons b more =>
      have hb := h.ends b rfl
      rw [firstLine]
      split
      · intro c hc
        rw [List.mem_singleton.mp hc, hb]
      · rename_i hends
        obtain ⟨rfl, more, rfl⟩ := eq_crlf_of_not_endsLine hb (Bool.eq_false_iff.mpr hends)
        have hfeed : firstLine isRowBreak ('\n' :: more) = ['\n'] := if_pos rfl
        rw [hfeed]
        intro c hc
        rcases List.mem_pair.mp hc with rfl | rfl <;> rfl
  have hrow : row.rdropWhile isRowBreak = row := by
    rw [List.rdropWhile_eq_self_iff]
    intro hne
    rw [h.plain _ (List.getLast_mem hne)]
    exact Bool.false_ne_true
  rw [firstLine_append isRowBreak (unbroken_of_forall isRowBreak h.plain _), List.rdropWhile,
    List.reverse_append, List.dropWhile_append_of_pos fun c hc => hbreak c (List.mem_reverse.mp hc)]
  exact hrow

/-- Without a next row, there is nothing after the row. -/
theorem RowCut.rest_eq_nil {lines row rest : Text} (h : RowCut lines row rest) {offset : Nat}
    (hnone : breakEnds isRowBreak offset rest = []) : rest = [] := by
  cases rest with
  | nil => rfl
  | cons b more =>
    rw [breakEnds] at hnone
    split at hnone
    · cases hnone
    · rename_i hends
      obtain ⟨rfl, more, rfl⟩ := eq_crlf_of_not_endsLine (h.ends b rfl) (Bool.eq_false_iff.mpr hends)
      cases hnone

section

variable {text : Text} (hsize : text.byteLength + 1 < UInt64.size)
include hsize

theorem RowCut.rowStopInWords? {lines row rest : Text} (h : RowCut lines row rest)
    (htext : text = lines ++ (row ++ rest)) :
    text.rowStopInWords? (breakEnds isRowBreak 0 lines).length lines.byteLength =
      some (lines.byteLength + row.byteLength) := by
  have hlength : text.byteLength = lines.byteLength + (row.byteLength + rest.byteLength) := by
    rw [htext, byteLength_append, byteLength_append]
  have hcount := length_breakEnds_le isRowBreak 0 lines
  have hslice := slice_line h.whole
  rw [← htext] at hslice
  rw [Text.rowStopInWords?, Word.add?, if_pos (by omega)]
  show (match (lineStarts isRowBreak text)[(breakEnds isRowBreak 0 lines).length + 1]? with
    | some stop => Word.add? lines.byteLength
        (byteLength ((text.slice ⟨lines.byteLength, stop⟩).rdropWhile isRowBreak))
    | none => some text.byteLength) = _
  cases hnext : (lineStarts isRowBreak text)[(breakEnds isRowBreak 0 lines).length + 1]? with
  | some stop =>
    rw [hnext, Option.getD_some] at hslice
    show Word.add? _ _ = _
    rw [hslice, h.rdropWhile_firstLine, Word.add?, if_pos (by omega)]
  | none =>
    -- there is no start after that of the row, and so no break in the rest
    obtain ⟨front, hfront, -, hstarts⟩ := lineStarts_append h.whole
    rw [← htext] at hstarts
    rw [List.getElem?_eq_none_iff, hstarts, List.length_append, List.length_cons,
      breakEnds_unbroken isRowBreak (unbroken_of_forall isRowBreak h.plain _)] at hnext
    have hnone : (breakEnds isRowBreak (lines.byteLength + row.byteLength) rest).length = 0 := by omega
    have hlast : rest = [] := h.rest_eq_nil (List.length_eq_zero_iff.mp hnone)
    rw [hlast] at hlength
    exact congrArg some hlength

theorem offsetInWords?_eq (p : Point) : text.offsetInWords? p = some (text.offsetOf? p) := by
  rcases Nat.lt_or_ge p.row (rows text).length with hlt | hge
  · obtain ⟨lines, row, rest, htext, hcut, hcount, -⟩ := exists_rowCut hlt
    have hstart : (lineStarts isRowBreak text)[p.row]? = some lines.byteLength := by
      rw [← hcount, htext]
      exact getElem?_lineStarts hcut.whole
    have hoffset := hcut.offsetOf? htext p.column
    have hstop := hcut.rowStopInWords? hsize htext
    rw [hcount] at hoffset hstop
    have hlength : text.byteLength = lines.byteLength + (row.byteLength + rest.byteLength) := by
      rw [htext, byteLength_append, byteLength_append]
    rw [hoffset]
    simp only [offsetInWords?, hstart, hstop, Option.map_some, Word.addUpToMax, Option.some.injEq]
    omega
  · have hnone := getElem?_lineStarts_eq_none_iff.mpr hge
    simp only [offsetInWords?, offsetOf?, hnone, Option.map_none]

end

end Text

/-- Points and offsets convert both ways.  An offset comes back from its point as it is, or as the end of the
text if it is past it, except that the LF of a CRLF comes back as the CR.  A point has an offset iff its row is
one of the text; the point of this offset is in the same row, at the same column or at the end of the row if
the column is past it.  All sums and differences on the way are words of 64 bits for a text whose length is
less than the greatest word, whatever the offset, the row and the column are. -/
theorem points_and_offsets_convert (text : Text) :
    (∀ o, let m := min o text.byteLength
      (text.InsideCrlf m → text.offsetOf? (text.pointOf o) = some (m - 1)) ∧
        (¬text.InsideCrlf m → text.offsetOf? (text.pointOf o) = some m)) ∧
      (∀ r c, (text.offsetOf? ⟨r, c⟩ = none ↔ text.rows.length ≤ r) ∧
        ∀ row, text.rows[r]? = some row →
          ∃ b ≤ text.byteLength, text.offsetOf? ⟨r, c⟩ = some b ∧
            text.pointOf b = ⟨r, min c row.byteLength⟩) ∧
      (text.byteLength + 1 < UInt64.size → ∀ o p,
        text.pointInWords? o = some (text.pointOf o) ∧
          text.offsetInWords? p = some (text.offsetOf? p)) := by
  refine ⟨fun o => ⟨fun hinside => ?_, fun hnot => ?_⟩, fun r c => ⟨?_, fun row hrow => ?_⟩,
    fun hsize o p => ⟨text.pointInWords?_eq o, Text.offsetInWords?_eq hsize p⟩⟩
  · obtain ⟨lines, row, more, htext, hcut, hm⟩ := hinside.exists_rowCut
    rw [← Text.pointOf_min, hm, hcut.pointOf_crlf htext rfl, hcut.offsetOf? htext]
    exact congrArg some (by omega)
  · rcases Text.exists_rowCut_of_le (Nat.min_le_right o text.byteLength) with hinside | hrow
    · exact absurd hinside hnot
    · obtain ⟨lines, row, rest, k, htext, hcut, hm, hk⟩ := hrow
      rw [← Text.pointOf_min, hm, hcut.pointOf htext hk, hcut.offsetOf? htext, Nat.min_eq_left hk]
  · rw [Text.offsetOf?, Option.map_eq_none_iff]
    exact Text.getElem?_lineStarts_eq_none_iff
  · have hlt := (List.getElem?_eq_some_iff.mp hrow).1
    obtain ⟨lines, row', rest, htext, hcut, hcount, hrow'⟩ := Text.exists_rowCut hlt
    obtain rfl : row = row' := Option.some.inj (hrow.symm.trans hrow')
    have hk := Nat.min_le_right c row.byteLength
    refine ⟨lines.byteLength + min c row.byteLength, ?_, ?_, ?_⟩
    · rw [htext, Text.byteLength_append, Text.byteLength_append]
      omega
    · rw [← hcount, hcut.offsetOf? htext]
    · rw [← hcount, hcut.pointOf htext hk]

/-- After a lone CR there is an empty row with a CRLF: its LF comes back as the CR, and so does the greatest
column. -/
theorem points_and_offsets_convert_empty_row :
    let text : Text := "é\r\r\n\nx".toList
    text.rows = ["é".toList, [], [], ['x']] ∧ text.InsideCrlf 4 ∧ text.pointOf 4 = ⟨1, 1⟩ ∧
      text.offsetOf? ⟨1, 1⟩ = some 3 ∧ text.byteLength + 1 < UInt64.size ∧
      text.offsetInWords? ⟨1, UInt64.size - 1⟩ = some (some 3) ∧ text.pointOf 3 = ⟨1, 0⟩ := by
  intro text
  have hinside : text.InsideCrlf 4 := ⟨"é\r".toList, "\nx".toList, rfl, rfl⟩
  have hpoint : text.pointOf 4 = ⟨1, 1⟩ := by decide
  have hsize : text.byteLength + 1 < UInt64.size := by decide
  obtain ⟨hback, hrows, hwords⟩ := points_and_offsets_convert text
  have hfour : text.offsetOf? (text.pointOf 4) = some 3 := (hback 4).1 hinside
  obtain ⟨b, -, hb, hstart⟩ := (hrows 1 (UInt64.size - 1)).2 [] rfl
  have hthree : text.offsetOf? ⟨1, UInt64.size - 1⟩ = some 3 := by decide
  rw [hthree] at hb
  rw [hpoint] at hfour
  refine ⟨by decide, hinside, hpoint, hfour, hsize, ?_, ?_⟩
  · rw [(hwords hsize 0 _).2, hthree]
  · rw [← Option.some.inj hb] at hstart
    exact hstart

end Abnf
