/-
Rows, points and offsets.

A text is cut into lines after its breaks.  Let a text be made of whole lines and a rest: then the lines
of the text are these, and after them the lines of the rest (`lineStarts_append`).  So the line of an
offset starts after the last break before it (`lineAt_append`), and an offset in a row is found again by
its row and column (`offsetOf?_pointOf`).

The lemmas on lines hold for every class of break characters.  A CR directly before an LF ends no line,
so whether a text is made of whole lines depends on what follows it (`EndsBefore`), and so does whether
a piece of a line holds the end of a line (`Unbroken`).  Every text can be cut into whole lines, a piece
of a line and what follows them at any place between two characters (`exists_lineCut`).
-/
import Abnf.Proofs.Scan

namespace Abnf.Text

section

variable (isBreak : Char → Bool)

/-- Whether a text is empty or ends with a break. -/
def EndsLine (text : Text) : Prop := ∀ b, text.getLast? = some b → isBreak b = true

/-- Whether a text is empty or its last character ends a line when a rest follows it. -/
def EndsBefore (text rest : Text) : Prop :=
  ∀ b, text.getLast? = some b → endsLine isBreak b rest = true

/-- Whether no character of a piece of text ends a line when a rest follows the piece. -/
def Unbroken : Text → Text → Prop
  | [], _ => True
  | c :: cs, rest => endsLine isBreak c (cs ++ rest) = false ∧ Unbroken cs rest

theorem EndsBefore.endsLine {text rest : Text} (h : EndsBefore isBreak text rest) :
    EndsLine isBreak text := fun b hb => (Bool.and_eq_true_iff.mp (h b hb)).1

/-- Whole lines are not cut between a CR and an LF. -/
theorem EndsBefore.not_cut {text rest : Text} (h : EndsBefore isBreak text rest)
    (hlast : text.getLast? = some '\r') : rest.head? ≠ some '\n' := by
  intro hhead
  have hends := h '\r' hlast
  rw [Text.endsLine, hhead] at hends
  simp at hends

theorem EndsBefore.cons {c d : Char} {text rest : Text} (h : EndsBefore isBreak (d :: text) rest) :
    EndsBefore isBreak (c :: d :: text) rest := by
  intro b hb
  rw [List.getLast?_cons_cons] at hb
  exact h b hb

theorem EndsLine.endsBefore {text rest : Text} (h : EndsLine isBreak text)
    (hrest : rest.head? ≠ some '\n') : EndsBefore isBreak text rest := by
  intro b hb
  rw [Text.endsLine, h b hb]
  simp [hrest]

theorem unbroken_of_forall {line : Text} (h : ∀ c ∈ line, isBreak c = false) (rest : Text) :
    Unbroken isBreak line rest := by
  induction line with
  | nil => trivial
  | cons c cs ih =>
    refine ⟨?_, ih fun d hd => h d (List.mem_cons_of_mem _ hd)⟩
    rw [Text.endsLine, h c List.mem_cons_self]
    rfl

theorem Unbroken.append {line more rest : Text} (h : Unbroken isBreak line (more ++ rest))
    (hmore : Unbroken isBreak more rest) : Unbroken isBreak (line ++ more) rest := by
  induction line with
  | nil => exact hmore
  | cons c cs ih =>
    refine ⟨?_, ih h.2⟩
    show Text.endsLine isBreak c (cs ++ more ++ rest) = false
    rw [List.append_assoc]
    exact h.1

/-- A break is followed by something and stands inside of the text. -/
theorem lt_of_mem_breakEnds {offset e : Nat} {text : Text} (h : e ∈ breakEnds isBreak offset text) :
    offset < e ∧ e ≤ offset + text.byteLength := by
  induction text generalizing offset with
  | nil => exact absurd h List.not_mem_nil
  | cons c cs ih =>
    have hpos := c.utf8Size_pos
    rw [breakEnds] at h
    simp only [byteLength]
    split at h
    · rcases List.mem_cons.mp h with rfl | h
      · omega
      · have := ih h
        omega
    · have := ih h
      omega

/-- The breaks of a text are those after a piece that ends no line. -/
theorem breakEnds_unbroken {line rest : Text} (h : Unbroken isBreak line rest) (offset : Nat) :
    breakEnds isBreak offset (line ++ rest) = breakEnds isBreak (offset + line.byteLength) rest := by
  induction line generalizing offset with
  | nil => rfl
  | cons c cs ih =>
    rw [List.cons_append, breakEnds, h.1, byteLength, ← Nat.add_assoc]
    exact ih h.2 _

/-- The breaks of two pieces, unless the cut is between the CR and the LF of a CRLF. -/
theorem breakEnds_append (s : Text) {t : Text}
    (h : s.getLast? = some '\r' → t.head? ≠ some '\n') (offset : Nat) :
    breakEnds isBreak offset (s ++ t) =
      breakEnds isBreak offset s ++ breakEnds isBreak (offset + s.byteLength) t := by
  induction s generalizing offset with
  | nil => rfl
  | cons c cs ih =>
    -- a break is decided by the next character
    have hends : endsLine isBreak c (cs ++ t) = endsLine isBreak c cs := by
      cases cs with
      | nil =>
        rw [List.nil_append, endsLine, endsLine]
        by_cases hc : c = '\r'
        · have hnot : (t.head? == some '\n') = false := beq_eq_false_iff_ne.mpr (h (by rw [hc]; rfl))
          rw [hnot]
          rfl
        · rw [beq_eq_false_iff_ne.mpr hc]
          rfl
      | cons d cs => rfl
    have htail : cs.getLast? = some '\r' → t.head? ≠ some '\n' :=
      fun hlast => h (by rw [List.getLast?_cons, hlast]; rfl)
    rw [List.cons_append, breakEnds, hends, ih htail, breakEnds, byteLength, Nat.add_assoc]
    split <;> rfl

/-- A break at the end of a text ends a line there. -/
theorem breakEnds_concat (s : Text) {b : Char} (hb : isBreak b = true) (offset : Nat) :
    ∃ ends, breakEnds isBreak offset (s ++ [b]) = ends ++ [offset + byteLength (s ++ [b])] := by
  induction s generalizing offset with
  | nil =>
    have hends : endsLine isBreak b [] = true := by
      rw [endsLine, hb]
      simp
    exact ⟨[], by rw [List.nil_append, breakEnds, hends]; rfl⟩
  | cons c cs ih =>
    obtain ⟨ends, hends⟩ := ih (offset + c.utf8Size)
    rw [List.cons_append, breakEnds, hends, byteLength, ← Nat.add_assoc]
    split
    · exact ⟨_ :: ends, rfl⟩
    · exact ⟨ends, rfl⟩

/-- After whole lines a line starts. -/
theorem starts_of_endsLine {text : Text} (h : EndsLine isBreak text) :
    ∃ front, 0 :: breakEnds isBreak 0 text = front ++ [text.byteLength] := by
  rcases List.eq_nil_or_concat text with rfl | ⟨front, b, rfl⟩
  · exact ⟨[], rfl⟩
  · have hb : isBreak b = true := h b (by simp)
    obtain ⟨ends, hends⟩ := breakEnds_concat isBreak front hb 0
    refine ⟨0 :: ends, ?_⟩
    rw [List.concat_eq_append, hends, Nat.zero_add, List.cons_append]

/-- Whole lines, a piece of a line that ends no line, and what follows them. -/
structure LineCut (lines line rest : Text) : Prop where
  whole : EndsBefore isBreak lines (line ++ rest)
  piece : Unbroken isBreak line rest

/-- A text can be cut at any place between two characters. -/
theorem exists_lineCut (before rest : Text) :
    ∃ lines line, before = lines ++ line ∧ LineCut isBreak lines line rest := by
  induction before with
  | nil => exact ⟨[], [], rfl, fun b hb => absurd hb (by simp), trivial⟩
  | cons c cs ih =>
    obtain ⟨lines, line, rfl, hwhole, hpiece⟩ := ih
    cases lines with
    | nil =>
      -- the first character is the only one that may end a line
      cases hc : endsLine isBreak c (line ++ rest) with
      | true =>
        refine ⟨[c], line, rfl, fun b hb => ?_, hpiece⟩
        rw [List.getLast?_singleton, Option.some.injEq] at hb
        rw [← hb, hc]
      | false => exact ⟨[], c :: line, rfl, fun b hb => absurd hb (by simp), hc, hpiece⟩
    | cons d lines =>
      exact ⟨c :: d :: lines, line, rfl, hwhole.cons isBreak, hpiece⟩

/-- As many whole lines as a text has breaks, or fewer, can be cut off its front. -/
theorem exists_lines_append {text : Text} {offset n : Nat}
    (h : n ≤ (breakEnds isBreak offset text).length) :
    ∃ lines rest, text = lines ++ rest ∧ EndsBefore isBreak lines rest ∧
      (breakEnds isBreak offset lines).length = n := by
  induction text generalizing offset n with
  | nil => exact ⟨[], [], rfl, fun b hb => absurd hb (by simp), (Nat.le_zero.mp h).symm⟩
  | cons c cs ih =>
    cases n with
    | zero => exact ⟨[], c :: cs, rfl, fun b hb => absurd hb (by simp), rfl⟩
    | succ n =>
      rw [breakEnds] at h
      cases hc : endsLine isBreak c cs with
      | true =>
        rw [hc] at h
        obtain ⟨lines, rest, rfl, hwhole, hlength⟩ := ih (Nat.le_of_succ_le_succ h)
        cases lines with
        | nil =>
          have hends : endsLine isBreak c [] = true := by
            rw [endsLine, (Bool.and_eq_true_iff.mp hc).1]
            simp
          refine ⟨[c], rest, rfl, fun b hb => ?_, ?_⟩
          · rw [List.getLast?_singleton, Option.some.injEq] at hb
            rw [← hb]
            exact hc
          · rw [breakEnds, hends, if_pos rfl, List.length_cons, hlength]
        | cons d lines =>
          have hends : endsLine isBreak c (d :: lines) = true := hc
          refine ⟨c :: d :: lines, rest, rfl, hwhole.cons isBreak, ?_⟩
          rw [breakEnds, hends, if_pos rfl, List.length_cons, hlength]
      | false =>
        rw [hc] at h
        obtain ⟨lines, rest, rfl, hwhole, hlength⟩ := ih h
        -- the lines hold a break, so it is they that follow the character
        cases lines with
        | nil => exact absurd hlength (by simp [breakEnds])
        | cons d lines =>
          have hends : endsLine isBreak c (d :: lines) = false := hc
          refine ⟨c :: d :: lines, rest, rfl, hwhole.cons isBreak, ?_⟩
          rw [breakEnds, hends]
          exact hlength

/-- The last line of a text and the whole lines before it. -/
theorem exists_lastLine (text : Text) :
    ∃ lines line, text = lines ++ line ∧ EndsLine isBreak lines ∧ ∀ c ∈ line, isBreak c = false := by
  induction text with
  | nil => exact ⟨[], [], rfl, by simp [EndsLine], by simp⟩
  | cons c cs ih =>
    obtain ⟨lines, line, rfl, hends, hline⟩ := ih
    cases lines with
    | nil =>
      cases hc : isBreak c with
      | true => exact ⟨[c], line, rfl, by simp [EndsLine, hc], hline⟩
      | false =>
        refine ⟨[], c :: line, rfl, hends, fun d hd => ?_⟩
        rcases List.mem_cons.mp hd with rfl | hd
        · exact hc
        · exact hline d hd
    | cons d lines =>
      refine ⟨c :: d :: lines, line, rfl, fun b hb => hends b ?_, hline⟩
      rwa [List.getLast?_cons_cons] at hb

section

variable {isBreak} {lines rest : Text} (hlines : EndsBefore isBreak lines rest)
include hlines

/-- The lines of whole lines and a rest are these lines and those of the rest. -/
theorem lineStarts_append :
    ∃ front, front.length = (breakEnds isBreak 0 lines).length ∧ (∀ e ∈ front, e ≤ lines.byteLength) ∧
      lineStarts isBreak (lines ++ rest) =
        front ++ lines.byteLength :: breakEnds isBreak lines.byteLength rest := by
  obtain ⟨front, hfront⟩ := starts_of_endsLine isBreak (hlines.endsLine isBreak)
  refine ⟨front, ?_, fun e he => ?_, ?_⟩
  · simpa using (congrArg List.length hfront).symm
  · have hmem : e ∈ 0 :: breakEnds isBreak 0 lines := by
      rw [hfront]
      exact List.mem_append_left _ he
    rcases List.mem_cons.mp hmem with rfl | hmem
    · exact Nat.zero_le _
    · simpa using (lt_of_mem_breakEnds isBreak hmem).2
  · rw [lineStarts, breakEnds_append isBreak lines (hlines.not_cut isBreak), ← List.cons_append, hfront,
      Nat.zero_add, List.append_assoc, List.singleton_append]

theorem getElem?_lineStarts :
    (lineStarts isBreak (lines ++ rest))[(breakEnds isBreak 0 lines).length]? =
      some lines.byteLength := by
  obtain ⟨front, hlength, -, hstarts⟩ := lineStarts_append hlines
  rw [hstarts, ← hlength]
  simp

/-- An offset before the next break is in the line that starts after whole lines. -/
theorem lineAt_append {offset : Nat} (hle : lines.byteLength ≤ offset)
    (hlater : ∀ e ∈ breakEnds isBreak lines.byteLength rest, offset < e) :
    lineAt isBreak (lines ++ rest) offset =
      ((breakEnds isBreak 0 lines).length, lines.byteLength) := by
  obtain ⟨front, hlength, hfront, hstarts⟩ := lineStarts_append hlines
  have htake : (lineStarts isBreak (lines ++ rest)).takeWhile (· ≤ offset) =
      front ++ [lines.byteLength] := by
    have hpos : ∀ e ∈ front ++ [lines.byteLength], decide (e ≤ offset) = true := by
      intro e he
      rw [decide_eq_true_eq]
      rcases List.mem_append.mp he with he | he
      · exact Nat.le_trans (hfront e he) hle
      · rw [List.mem_singleton.mp he]
        exact hle
    rw [hstarts, List.append_cons, List.takeWhile_append_of_pos hpos]
    cases hends : breakEnds isBreak lines.byteLength rest with
    | nil => exact List.append_nil _
    | cons e ends =>
      have hnot := hlater e (by rw [hends]; exact List.mem_cons_self)
      rw [List.takeWhile_cons_of_neg (by simpa using hnot), List.append_nil]
  simp only [lineAt, htake, List.length_append, List.length_singleton, Nat.add_sub_cancel, hlength]
  simp

end

end

/-- An offset in a character that is no break is found again by its row and column. -/
theorem offsetOf?_pointOf {before after : Text} {c : Char} {offset : Nat}
    (hc : isRowBreak c = false) (hle : before.byteLength ≤ offset)
    (hlt : offset < before.byteLength + c.utf8Size) :
    offsetOf? (before ++ c :: after) (pointOf (before ++ c :: after) offset) = some offset := by
  obtain ⟨lines, line, rfl, hlines, hline⟩ := exists_lastLine isRowBreak before
  rw [byteLength_append] at hle hlt
  rw [List.append_assoc]
  -- the row goes on at least to the character
  have hrow : ∀ d ∈ line ++ [c], isRowBreak d = false := by
    intro d hd
    rcases List.mem_append.mp hd with hd | hd
    · exact hline d hd
    · rw [List.mem_singleton.mp hd]
      exact hc
  have hrest : (line ++ c :: after).head? ≠ some '\n' := by
    intro hhead
    have hmem : '\n' ∈ line ++ [c] := by
      cases line with
      | nil =>
        have hcn : c = '\n' := by simpa using hhead
        simp [hcn]
      | cons d line =>
        have hdn : d = '\n' := by simpa using hhead
        simp [hdn]
    exact absurd (hrow '\n' hmem) (by decide)
  have hwhole := hlines.endsBefore isRowBreak hrest
  have hlength : byteLength (line ++ [c]) = line.byteLength + c.utf8Size := by
    rw [byteLength_append]
    rfl
  have hlater : ∀ e ∈ breakEnds isRowBreak lines.byteLength (line ++ c :: after), offset < e := by
    intro e he
    rw [List.append_cons, breakEnds_unbroken isRowBreak (unbroken_of_forall isRowBreak hrow _)] at he
    have hlt' := (lt_of_mem_breakEnds isRowBreak he).1
    omega
  have hmin : min offset (byteLength (lines ++ (line ++ c :: after))) = offset := by
    rw [List.append_cons, byteLength_append, byteLength_append, hlength]
    omega
  have hpoint : pointOf (lines ++ (line ++ c :: after)) offset =
      ⟨(breakEnds isRowBreak 0 lines).length, offset - lines.byteLength⟩ := by
    rw [pointOf, hmin, lineAt_append hwhole (by omega) hlater]
  have hcolumn : offset - lines.byteLength ≤
      byteLength ((line ++ c :: after).takeWhile (!isRowBreak ·)) := by
    have hpos : ∀ d ∈ line ++ [c], (!isRowBreak d) = true := by
      intro d hd
      rw [hrow d hd]
      rfl
    rw [List.append_cons, List.takeWhile_append_of_pos hpos, byteLength_append, hlength]
    omega
  rw [hpoint, offsetOf?, getElem?_lineStarts hwhole, Option.map_some, dropBytes_append,
    Nat.min_eq_left hcolumn]
  exact congrArg some (by omega)

end Abnf.Text
