/-
How tokens tile a text.

A cursor at the start of a text makes token after token and ends with the empty token at the end of the text.  The
tokens before this one stand side by side from the first byte to the last (`Span.Tiles`), and no place between two
of them is inside of a character.

The tiling follows the lines: the tokens of line breaks are the breaks of the text, one for one (`Text.breaks`),
and all others stay inside of their lines.
-/
import Abnf.Proofs.Cursor
import Abnf.Proofs.Nesting

namespace Abnf

/-- Whether spans stand side by side from one offset to another, and none is empty. -/
def Span.Tiles : Nat → List Span → Nat → Prop
  | start, [], stop => start = stop
  | start, span :: spans, stop => span.start = start ∧ start < span.stop ∧ Span.Tiles span.stop spans stop

/-- There are no more spans than bytes. -/
theorem Span.Tiles.length_le {start stop : Nat} {spans : List Span} (h : Span.Tiles start spans stop) :
    start + spans.length ≤ stop := by
  induction spans generalizing start with
  | nil => exact Nat.le_of_eq h
  | cons span spans ih =>
    obtain ⟨-, hlt, hrest⟩ := h
    have := ih hrest
    rw [List.length_cons]
    omega

/-- The line breaks of a text that starts at an offset: a CRLF, and a CR or an LF elsewhere. -/
def Text.breaks : Nat → Text → List Span
  | _, [] => []
  | offset, '\r' :: '\n' :: cs => ⟨offset, offset + 2⟩ :: Text.breaks (offset + 2) cs
  | offset, c :: cs =>
    if Text.isRowBreak c then ⟨offset, offset + c.utf8Size⟩ :: Text.breaks (offset + c.utf8Size) cs
    else Text.breaks (offset + c.utf8Size) cs

namespace Text

/-- A character that does not start a CRLF is a break of its own or none. -/
theorem breaks_cons {c : Char} {cs : Text} (h : ¬(c = '\r' ∧ cs.head? = some '\n')) (offset : Nat) :
    breaks offset (c :: cs) =
      if isRowBreak c then ⟨offset, offset + c.utf8Size⟩ :: breaks (offset + c.utf8Size) cs
      else breaks (offset + c.utf8Size) cs := by
  refine breaks.eq_3 offset c cs fun rest hc hcs => h ⟨hc, ?_⟩
  rw [hcs]
  rfl

/-- Characters that are no breaks have none. -/
theorem breaks_append {w : Text} (hw : ∀ c ∈ w, isRowBreak c = false) (offset : Nat) (rest : Text) :
    breaks offset (w ++ rest) = breaks (offset + w.byteLength) rest := by
  induction w generalizing offset with
  | nil => rfl
  | cons c cs ih =>
    have hc := hw c List.mem_cons_self
    have hne : c ≠ '\r' := by
      rintro rfl
      exact absurd hc (by decide)
    rw [List.cons_append, breaks_cons (fun h => hne h.1), hc, if_neg Bool.false_ne_true,
      ih (fun d hd => hw d (List.mem_cons_of_mem c hd)), byteLength, Nat.add_assoc]

end Text

namespace Token

/-- The tokens of a text tile it, and the empty one at its end follows them. -/
theorem exists_tiles (start : Nat) (atLineStart : Bool) (text : Text) :
    ∃ tokens stop, scanFrom start atLineStart text = tokens ++ [stop] ∧ stop.kind = .endOfText ∧
      stop.span = ⟨start + text.byteLength, start + text.byteLength⟩ ∧ (∀ t ∈ tokens, t.kind.isLexical = true) ∧
      Span.Tiles start (tokens.map span) (start + text.byteLength) := by
  fun_induction scanFrom start atLineStart text with
  | case1 start atLineStart => exact ⟨[], _, rfl, rfl, rfl, fun _ h => absurd h List.not_mem_nil, rfl⟩
  | case2 start atLineStart c cs token ih =>
    obtain ⟨tokens, stop, heq, hend, hspan, hlexical, htiles⟩ := ih
    have hlength : token.span.stop + Text.byteLength (cs.drop (lexeme c cs).2) =
        start + Text.byteLength (c :: cs) := by
      rw [← first_text_append start atLineStart c cs, Text.byteLength_append, ← Nat.add_assoc]
      rfl
    have hpos : 0 < token.text.byteLength := Text.byteLength_pos (List.cons_ne_nil c _)
    rw [hlength] at hspan htiles
    refine ⟨token :: tokens, stop, by rw [heq]; rfl, hend, hspan, ?_, rfl, Nat.lt_add_of_pos_right hpos, htiles⟩
    intro t ht
    rcases List.mem_cons.mp ht with rfl | ht
    · exact lexeme_lexical c cs
    · exact hlexical t ht

/-- A text has no more tokens than bytes. -/
theorem length_significant_le (source : Text) : (significant source).length ≤ source.byteLength := by
  obtain ⟨tokens, stop, hscan, hend, -, -, htiles⟩ := exists_tiles 0 true source
  have hle := htiles.length_le
  rw [List.length_map] at hle
  have hstop : [stop].filter isSignificant = [] := by simp [isSignificant, hend]
  have hfilter : significant source = tokens.filter isSignificant := by
    rw [significant, scan, hscan, List.filter_append, hstop, List.append_nil]
  rw [hfilter]
  have := List.length_filter_le isSignificant tokens
  omega

/-- A token that is no line break holds no break. -/
theorem isRowBreak_of_mem_text {text : Text} {t : Token} (h : t ∈ scan text) (hkind : t.kind ≠ .newline) :
    ∀ d ∈ t.text, Text.isRowBreak d = false := by
  intro d hd
  rcases eq_end_or_first_of_mem h with ⟨-, htext⟩ | ⟨c, cs, ht⟩
  · rw [htext] at hd
    exact absurd hd List.not_mem_nil
  · rw [ht] at hd hkind
    have hc : Text.isRowBreak c = false := by
      rw [Bool.eq_false_iff]
      intro hc
      exact hkind (congrArg Prod.fst (lexeme_break hc cs))
    exact isRowBreak_of_mem_first hc hd

/-- A break character starts a line break, which is the first one of the text. -/
theorem breaks_of_isRowBreak {c : Char} (hc : Text.isRowBreak c = true) (start : Nat) (atLineStart : Bool)
    (cs : Text) :
    Text.breaks start (c :: cs) = (first start atLineStart c cs).span ::
      Text.breaks (first start atLineStart c cs).span.stop (cs.drop (lexeme c cs).2) := by
  have hlexeme := lexeme_break hc cs
  by_cases hcrlf : c = '\r' ∧ cs.head? = some '\n'
  · rw [if_pos hcrlf] at hlexeme
    obtain ⟨rest, rfl⟩ := List.head?_eq_some_iff.mp hcrlf.2
    rw [span, first, hlexeme, hcrlf.1]
    rfl
  · rw [if_neg hcrlf] at hlexeme
    rw [Text.breaks_cons hcrlf, if_pos hc, span, first, hlexeme]
    rfl

/-- The tokens of line breaks are the breaks of the text. -/
theorem span_filter_newline (start : Nat) (atLineStart : Bool) (text : Text) :
    ((scanFrom start atLineStart text).filter (·.kind == .newline)).map span = text.breaks start := by
  fun_induction scanFrom start atLineStart text with
  | case1 start atLineStart => rfl
  | case2 start atLineStart c cs token ih =>
    by_cases hc : Text.isRowBreak c = true
    · have hkind : (token.kind == .newline) = true :=
        beq_iff_eq.mpr (congrArg Prod.fst (lexeme_break hc cs))
      rw [List.filter_cons, if_pos hkind, List.map_cons, ih]
      exact (breaks_of_isRowBreak hc start atLineStart cs).symm
    · -- the token is a piece of its line, so that the next break comes after it
      have hkind : ¬(token.kind == .newline) = true :=
        fun h => hc (isRowBreak_of_newline (beq_iff_eq.mp h))
      have hfree : ∀ d ∈ token.text, Text.isRowBreak d = false :=
        fun d hd => isRowBreak_of_mem_first (Bool.eq_false_iff.mpr hc) hd
      rw [List.filter_cons, if_neg hkind, ih, ← first_text_append start atLineStart c cs,
        Text.breaks_append hfree]
      rfl

end Token

/-- Tokens tile a text line by line.  A cursor at the start of a text makes token after token until it makes the
empty one at the end of the text.  The tokens before this one stand side by side from the first byte to the last,
none of them is empty, and they start and stop between two characters.  Those of line breaks are the CRLFs of the
text and its other CRs and LFs, in order, and no other token holds a CR or an LF. -/
theorem tokens_tile_lines (text : Text) :
    ∃ tokens stop,
      (Scanning.tokens (tokens.length + 1)).run ⟨text, 0⟩ = some (tokens ++ [stop], ⟨text, text.byteLength⟩) ∧
        Token.scan text = tokens ++ [stop] ∧
        stop.kind = .endOfText ∧ stop.span = ⟨text.byteLength, text.byteLength⟩ ∧
        Span.Tiles 0 (tokens.map Token.span) text.byteLength ∧
        (∀ t ∈ tokens, t.kind ≠ .endOfText ∧ text.IsBoundary t.span.start ∧ text.IsBoundary t.span.stop ∧
          (t.kind ≠ .newline → ∀ c ∈ text.slice t.span, c ≠ '\r' ∧ c ≠ '\n')) ∧
        (tokens.filter (·.kind == .newline)).map Token.span = text.breaks 0 := by
  obtain ⟨tokens, stop, heq, hend, hspan, hlexical, htiles⟩ := Token.exists_tiles 0 true text
  rw [Nat.zero_add] at hspan htiles
  have hscan : Token.scan text = tokens ++ [stop] := heq
  have hrun := Scanning.tokens_scan text
  rw [hscan, List.length_append, List.length_singleton] at hrun
  refine ⟨tokens, stop, hrun, hscan, hend, hspan, htiles, fun t ht => ?_, ?_⟩
  · have hmem : t ∈ Token.scan text := by
      rw [hscan]
      exact List.mem_append_left [stop] ht
    obtain ⟨hstart, hstop⟩ := Token.isBoundary_of_mem_scan hmem
    have hkind : t.kind ≠ .endOfText := by
      intro hkind
      have hlex := hlexical t ht
      rw [hkind] at hlex
      exact absurd hlex (by decide)
    refine ⟨hkind, hstart, hstop, fun hline c hc => ?_⟩
    rw [Token.slice_span hmem] at hc
    simpa [Text.isRowBreak, and_comm] using Token.isRowBreak_of_mem_text hmem hline c hc
  · have hbreaks := Token.span_filter_newline 0 true text
    rw [heq, List.filter_append, List.map_append] at hbreaks
    simpa [hend] using hbreaks

/-- A string that is left open stops before the CRLF of its line, a percent sign stands for itself, and a CR alone
is a line break. -/
theorem tokens_tile_lines_open_string :
    let text : Text := "a \"é\r\n%x\r".toList
    ∃ tokens stop,
      (Scanning.tokens 8).run ⟨text, 0⟩ = some (tokens ++ [stop], ⟨text, 10⟩) ∧ stop.span = ⟨10, 10⟩ ∧
        tokens.map Token.span = [⟨0, 1⟩, ⟨1, 2⟩, ⟨2, 5⟩, ⟨5, 7⟩, ⟨7, 8⟩, ⟨8, 9⟩, ⟨9, 10⟩] ∧
        (∃ t ∈ tokens, t.kind ≠ .newline ∧ t.span = ⟨2, 5⟩ ∧ ∀ c ∈ text.slice t.span, c ≠ '\r' ∧ c ≠ '\n') ∧
        (tokens.filter (·.kind == .newline)).map Token.span = [⟨5, 7⟩, ⟨9, 10⟩] := by
  intro text
  obtain ⟨tokens, stop, hrun, hscan, -, hstop, -, htokens, hbreaks⟩ := tokens_tile_lines text
  have htext : tokens = (Token.scan text).dropLast := by rw [hscan, List.dropLast_concat]
  have hlength : tokens.length = 7 := by
    rw [htext]
    decide +kernel
  have hmem : (⟨.unknown, "\"é".toList, 2, false⟩ : Token) ∈ tokens := by
    rw [htext]
    decide +kernel
  rw [hlength] at hrun
  refine ⟨tokens, stop, hrun, hstop, ?_, ⟨_, hmem, by decide, rfl, (htokens _ hmem).2.2.2 (by decide)⟩, hbreaks⟩
  rw [htext]
  decide +kernel

end Abnf
