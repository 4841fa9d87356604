/-
What starts a line.

A token starts a line if the token before it is a line break, and a point is in the first column if the table of
rows has a start there.  The two agree at every token (`line_starts_agree`).  They could differ between a CR and
an LF only, where a break has been seen and no row starts; but no token ends there.  A line break is one token
(`endsBefore_break`) and all other tokens are free of break characters (`isRowBreak_of_mem_first`), so that
what stands before a token ends a line before the rest of the text, or does not end with a break at all
(`Text.Parted`).
-/
import Abnf.Proofs.Locality
import Abnf.Proofs.RowsAndLines
import Abnf.Proofs.Rules

namespace Abnf

namespace Text

/-- The character at a byte of a text. -/
theorem charAt?_append {before after : Text} {c : Char} {offset : Nat} (hle : before.byteLength ≤ offset)
    (hlt : offset < before.byteLength + c.utf8Size) : charAt? (before ++ c :: after) offset = some c := by
  induction before generalizing offset with
  | nil =>
    rw [byteLength, Nat.zero_add] at hlt
    rw [List.nil_append, charAt?, if_pos hlt]
  | cons d ds ih =>
    rw [byteLength] at hle hlt
    rw [List.cons_append, charAt?, if_neg (by omega)]
    exact ih (by omega) (by omega)

/-- An offset is in the first column iff what stands before it ends a line. -/
theorem column_eq_zero_iff (before rest : Text) :
    (pointOf (before ++ rest) before.byteLength).column = 0 ↔ EndsBefore isRowBreak before rest := by
  constructor
  · intro hcolumn
    obtain ⟨lines, line, rfl, hcut⟩ := exists_lineCut isRowBreak before rest
    rw [pointOf_cut hcut (List.append_assoc _ _ _) rfl] at hcolumn
    have hline : line = [] := by
      by_contra hne
      exact absurd hcolumn (Nat.ne_of_gt (byteLength_pos hne))
    have hwhole := hcut.whole
    rw [hline, List.nil_append] at hwhole
    rwa [hline, List.append_nil]
  · intro hends
    have hcut : LineCut isRowBreak before [] rest := ⟨hends, trivial⟩
    have hpoint : pointOf (before ++ rest) before.byteLength = ⟨_, 0⟩ :=
      pointOf_cut hcut rfl (by rw [List.append_nil])
    rw [hpoint]

/-- A text ends with a break iff the byte before its end is one. -/
theorem endsLine_iff (before rest : Text) :
    EndsLine isRowBreak before ↔ before.byteLength = 0 ∨
      charAt? (before ++ rest) (before.byteLength - 1) ∈ [some '\r', some '\n'] := by
  rcases List.eq_nil_or_concat before with rfl | ⟨front, b, rfl⟩
  · exact ⟨fun _ => Or.inl rfl, fun _ b hb => absurd hb (by simp)⟩
  · have hpos := b.utf8Size_pos
    have hlength : byteLength (front ++ [b]) = byteLength front + b.utf8Size := byteLength_append _ _
    have hchar : charAt? (front ++ [b] ++ rest) (byteLength (front ++ [b]) - 1) = some b := by
      rw [List.append_assoc, hlength]
      exact charAt?_append (by omega) (by omega)
    rw [List.concat_eq_append, hchar, EndsLine, List.getLast?_concat]
    simp only [Option.some.injEq, forall_eq', isRowBreak, Bool.or_eq_true, beq_iff_eq, List.mem_cons,
      List.not_mem_nil, or_false]
    constructor
    · exact fun h => Or.inr h.symm
    · rintro (h | h)
      · omega
      · exact h.symm

/-- What stands before a place and after it, with whether a line starts there: then a line ends before the rest,
and else there is no break before the place, not even the CR of a CRLF. -/
def Parted (atLineStart : Bool) (before rest : Text) : Prop :=
  (atLineStart = true → EndsBefore isRowBreak before rest) ∧
    (atLineStart = false → ¬EndsLine isRowBreak before)

theorem Parted.endsBefore_iff {atLineStart : Bool} {before rest : Text} (h : Parted atLineStart before rest) :
    atLineStart = true ↔ EndsBefore isRowBreak before rest := by
  refine ⟨h.1, fun hends => ?_⟩
  by_contra hnot
  exact h.2 (Bool.eq_false_iff.mpr hnot) (hends.endsLine isRowBreak)

theorem Parted.endsLine_iff {atLineStart : Bool} {before rest : Text} (h : Parted atLineStart before rest) :
    atLineStart = true ↔ EndsLine isRowBreak before := by
  refine ⟨fun hstart => (h.1 hstart).endsLine isRowBreak, fun hends => ?_⟩
  by_contra hnot
  exact h.2 (Bool.eq_false_iff.mpr hnot) hends

end Text

namespace Token

/-! ### Breaks in tokens -/

/-- Only a break starts a line break. -/
theorem isRowBreak_of_newline {c : Char} {cs : Text} (h : (lexeme c cs).1 = .newline) :
    Text.isRowBreak c = true := by
  revert h
  fun_cases lexeme c cs
  case case2 hc =>
    rw [hc]
    exact fun _ => rfl
  case case3 hc =>
    rw [hc]
    exact fun _ => rfl
  case case15 =>
    intro h
    rcases delimited_kind .charVal '"' cs with hk | hk <;> simp [hk] at h
  case case16 =>
    intro h
    rcases delimited_kind .proseVal '>' cs with hk | hk <;> simp [hk] at h
  case case17 =>
    intro h
    rcases percent_kind cs with hk | hk | hk <;> simp [hk] at h
  all_goals simp

/-- A token that starts with another character holds no break. -/
theorem isRowBreak_of_mem_first {c d : Char} {cs : Text} (hc : Text.isRowBreak c = false)
    (hd : d ∈ c :: cs.take (lexeme c cs).2) : Text.isRowBreak d = false := by
  rcases List.mem_cons.mp hd with rfl | hd
  · exact hc
  · -- the token is decided by its line, and takes no more than there is of it
    have hline : d ∈ cs.takeWhile (!Text.isRowBreak ·) := by
      have hcut := List.takeWhile_append_dropWhile (p := (!Text.isRowBreak ·)) (l := cs)
      cases hrest : cs.dropWhile (!Text.isRowBreak ·) with
      | nil =>
        rw [hrest, List.append_nil] at hcut
        rw [hcut]
        exact List.mem_of_mem_take hd
      | cons b rest =>
        have hb : Text.isRowBreak b = true := by
          have hnot := List.head?_dropWhile_not (!Text.isRowBreak ·) cs
          rw [hrest] at hnot
          simpa using hnot
        rw [hrest] at hcut
        rw [← hcut, lexeme_line hb _ rest hc, List.take_append_of_le_length (lexeme_le c _)] at hd
        exact List.mem_of_mem_take hd
    simpa using List.all_eq_true.mp List.all_takeWhile d hline

/-- A line break ends a line before what follows it. -/
theorem endsBefore_break {c : Char} (hc : Text.isRowBreak c = true) (before cs : Text) :
    Text.EndsBefore Text.isRowBreak (before ++ c :: cs.take (lexeme c cs).2) (cs.drop (lexeme c cs).2) := by
  rw [lexeme_break hc]
  by_cases hcrlf : c = '\r' ∧ cs.head? = some '\n'
  · obtain ⟨rest, rfl⟩ := List.head?_eq_some_iff.mp hcrlf.2
    intro b hb
    rw [if_pos hcrlf] at hb ⊢
    have hfeed : '\n' = b := by simpa using hb
    rw [← hfeed]
    rfl
  · intro b hb
    rw [if_neg hcrlf] at hb ⊢
    obtain rfl : c = b := by simpa using hb
    rw [Text.endsLine, hc, List.drop_zero, Bool.true_and, Bool.not_eq_true', Bool.eq_false_iff]
    simpa using hcrlf

/-- After a token a line starts iff the token is a line break. -/
theorem parted_first (before : Text) (c : Char) (cs : Text) :
    Text.Parted ((lexeme c cs).1 == .newline) (before ++ c :: cs.take (lexeme c cs).2)
      (cs.drop (lexeme c cs).2) := by
  constructor
  · intro hkind
    exact endsBefore_break (isRowBreak_of_newline (beq_iff_eq.mp hkind)) before cs
  · intro hkind hends
    have hc : Text.isRowBreak c = false := by
      by_contra hc
      rw [lexeme_break (Bool.not_eq_false _ ▸ hc)] at hkind
      exact Bool.noConfusion hkind
    have hlast := List.getLast?_eq_some_getLast (List.cons_ne_nil c (cs.take (lexeme c cs).2))
    have hbreak := hends _ (by rw [List.getLast?_append, hlast]; rfl)
    rw [isRowBreak_of_mem_first hc (List.getLast_mem _)] at hbreak
    exact absurd hbreak (by decide)

/-- Every token stands at a place where its flag says whether a line starts. -/
theorem exists_parted_of_mem {start : Nat} {atLineStart : Bool} {text : Text} {t : Token}
    (h : t ∈ scanFrom start atLineStart text) : ∀ before : Text, start = before.byteLength →
      Text.Parted atLineStart before text →
      ∃ front back, before ++ text = front ++ back ∧ t.start = front.byteLength ∧
        Text.Parted t.atLineStart front back := by
  -- along the tokens: each one hands the cut behind itself on to the next
  fun_induction scanFrom start atLineStart text with
  | case1 start atLineStart =>
    intro before hstart hparted
    rw [List.mem_singleton.mp h]
    exact ⟨before, [], rfl, hstart, hparted⟩
  | case2 start atLineStart c cs token ih =>
    intro before hstart hparted
    rcases List.mem_cons.mp h with rfl | h
    · exact ⟨before, c :: cs, rfl, hstart, hparted⟩
    · have hstop : token.span.stop = Text.byteLength (before ++ token.text) := by
        rw [Text.byteLength_append, ← hstart]
        rfl
      obtain ⟨front, back, htext, hfront, hback⟩ := ih h _ hstop (parted_first before c cs)
      refine ⟨front, back, ?_, hfront, hback⟩
      rw [← htext, List.append_assoc]
      exact congrArg (before ++ ·) (first_text_append start atLineStart c cs).symm

theorem exists_parted {source : Text} {t : Token} (h : t ∈ scan source) :
    ∃ front back, source = front ++ back ∧ t.start = front.byteLength ∧
      Text.Parted t.atLineStart front back := by
  refine exists_parted_of_mem h [] rfl ⟨fun _ b hb => ?_, fun hflag => ?_⟩
  · exact absurd hb (by simp)
  · exact absurd hflag (by decide)

/-- A token starts a line iff it is in the first column. -/
theorem atLineStart_iff_column {source : Text} {t : Token} (h : t ∈ scan source) :
    t.atLineStart = true ↔ (source.pointOf t.span.start).column = 0 := by
  obtain ⟨front, back, rfl, hstart, hparted⟩ := exists_parted h
  show _ ↔ (Text.pointOf _ t.start).column = 0
  rw [hstart, Text.column_eq_zero_iff, hparted.endsBefore_iff]

end Token

/-- The flag of a token and the table of rows agree on what starts a line.  A token of a text, the end included,
starts a line iff the point of its start is in the first column, and this is so iff it stands at the start of the
text or after a CR or an LF.  So every rule starts in the first column, and none of its tokens but the head does,
comments left out. -/
theorem line_starts_agree (limit : Nat) (source : Text) :
    let tree := parse limit source
    (∀ t ∈ Token.scan source,
      (t.atLineStart = true ↔ (tree.source.pointOf t.span.start).column = 0) ∧
        (t.atLineStart = true ↔ t.span.start = 0 ∨
          source.charAt? (t.span.start - 1) ∈ [some '\r', some '\n'])) ∧
      ∀ s ∈ tree.sites, s.node.kind = .rule →
        (tree.startPoint s.node).column = 0 ∧
          ∃ head rest, s.node.leaves.filter (!·.isComment) = head :: rest ∧ head.kind = .identifier ∧
            head.span.start = s.node.span.start ∧
            ∀ t ∈ rest, (tree.source.pointOf t.span.start).column ≠ 0 := by
  intro tree
  refine ⟨fun t ht => ⟨Token.atLineStart_iff_column ht, ?_⟩, fun s hs hkind => ?_⟩
  · obtain ⟨front, back, rfl, hstart, hparted⟩ := Token.exists_parted ht
    show _ ↔ t.start = 0 ∨ Text.charAt? _ (t.start - 1) ∈ _
    rw [hstart, ← Text.endsLine_iff, hparted.endsLine_iff]
  · obtain ⟨before, head, us, hrule⟩ := Grammar.exists_ruleAt (rule_mem_root hs hkind) hkind
    obtain ⟨hname, hline⟩ : head.kind = .identifier ∧ head.atLineStart = true := by
      simpa [Token.isHead] using hrule.isHead
    have hscan : ∀ t ∈ head :: us, t ∈ Token.scan source := by
      intro t ht
      have hmem : t ∈ Token.significant source := by
        rw [hrule.tokens]
        exact List.mem_append_right _ ht
      exact (List.mem_filter.mp hmem).1
    refine ⟨?_, head, _, hrule.withoutComments_leaves, hname, hrule.span_start.symm, fun t ht hcolumn => ?_⟩
    · show (Text.pointOf source s.node.span.start).column = 0
      rw [hrule.span_start]
      exact (Token.atLineStart_iff_column (hscan head List.mem_cons_self)).mp hline
    · have hin : t.atLineStart = false := by
        simpa [Token.isInLine] using List.all_eq_true.mp List.all_takeWhile t ht
      have hmem : t ∈ us := (List.mem_filter.mp ((List.takeWhile_sublist _).subset ht)).1
      rw [(Token.atLineStart_iff_column (hscan t (List.mem_cons_of_mem _ hmem))).mpr hcolumn] at hin
      exact absurd hin (by decide)

/-- After a string that is left open there is an empty row: its CRLF starts a line and the one before it does
not.  The end of the text starts a line after a lone CR. -/
theorem line_starts_agree_empty_row :
    let source : Text := "a \"é\r\n\r\n b\r".toList
    let tree := parse 1 source
    (⟨.newline, "\r\n".toList, 5, false⟩ : Token) ∈ Token.scan source ∧ (source.pointOf 5).column ≠ 0 ∧
      (⟨.newline, "\r\n".toList, 7, true⟩ : Token) ∈ Token.scan source ∧ (source.pointOf 7).column = 0 ∧
      (⟨.endOfText, [], 12, true⟩ : Token) ∈ Token.scan source ∧ (source.pointOf 12).column = 0 ∧
      ∃ s ∈ tree.sites, s.node.kind = .rule ∧ (tree.startPoint s.node).column = 0 := by
  intro source tree
  obtain ⟨htokens, hrules⟩ := line_starts_agree 1 source
  have hopen : (⟨.newline, "\r\n".toList, 5, false⟩ : Token) ∈ Token.scan source := by decide +kernel
  have hempty : (⟨.newline, "\r\n".toList, 7, true⟩ : Token) ∈ Token.scan source := by decide +kernel
  have hend : (⟨.endOfText, [], 12, true⟩ : Token) ∈ Token.scan source := by decide +kernel
  have hrule : (tree.sites.find? (·.node.kind == .rule)).isSome = true := by decide +kernel
  obtain ⟨s, hs⟩ := Option.isSome_iff_exists.mp hrule
  have hmem := List.mem_of_find?_eq_some hs
  have hkind : s.node.kind = .rule := by simpa using List.find?_some hs
  refine ⟨hopen, fun hcolumn => ?_, hempty, (htokens _ hempty).1.mp rfl, hend, (htokens _ hend).1.mp rfl,
    s, hmem, hkind, (hrules s hmem hkind).1⟩
  exact absurd ((htokens _ hopen).1.mpr hcolumn) (by decide)

end Abnf
