/-
Entries do not depend on what stands before and after them.

A text that is put together from whole lines and a text that starts in the first column is read piece
by piece: the trees below its root are those of the first piece, followed by those of the second one
moved to their place (`parse_append`).  Whatever is wrong in one piece stays there.

* `Token.lexeme_line`: a token looks no further than to the end of its line;
* `Token.scanFrom_append`: so the tokens of the two pieces stand one after the other;
* `Token.scanFrom_add`, `Grammar.parallel_shift`: moving a text moves its tokens and trees;
* `Grammar.ruleList_append`: an entry ends where the next one starts.
-/
import Abnf.Proofs.Layout
import Abnf.Proofs.Parallel
import Abnf.Proofs.Rows

namespace Abnf

/-! ### Moving to another place -/

def Span.shift (n : Nat) (s : Span) : Span := ⟨s.start + n, s.stop + n⟩

def Token.shift (n : Nat) (t : Token) : Token := { t with start := t.start + n }

namespace Tree

mutual

/-- A tree with all its spans moved by some bytes. -/
def shift (n : Nat) : Tree → Tree
  | leaf token => leaf (token.shift n)
  | node kind span children => node kind (span.shift n) (shiftAll n children)

/-- Trees with all their spans moved by some bytes. -/
def shiftAll (n : Nat) : List Tree → List Tree
  | [] => []
  | t :: ts => shift n t :: shiftAll n ts

end

theorem shiftAll_eq_map (n : Nat) (ts : List Tree) : shiftAll n ts = ts.map (shift n) := by
  induction ts with
  | nil => rfl
  | cons t ts ih => rw [shiftAll, ih, List.map_cons]

theorem span_shift (n : Nat) (t : Tree) : (t.shift n).span = t.span.shift n := by
  cases t with
  | leaf token =>
    show (⟨token.start + n, token.start + n + _⟩ : Span) = ⟨_, token.start + _ + n⟩
    rw [Nat.add_right_comm]
    rfl
  | node kind span children => rfl

/-- What some trees span moves with them. -/
theorem spanOf_shift (n : Nat) (ts : List Tree) (offset : Nat) :
    spanOf (ts.map (shift n)) (offset + n) = (spanOf ts offset).shift n := by
  rw [spanOf, spanOf, List.head?_map, List.getLast?_map]
  cases ts.head? with
  | none => rfl
  | some first =>
    cases ts.getLast? with
    | none => rfl
    | some last =>
      simp only [Option.map_some, span_shift]
      rfl

theorem shift_branch {ts : List Tree} (h : ts ≠ []) (n : Nat) (kind : Kind) :
    (branch kind ts).shift n = branch kind (ts.map (shift n)) := by
  rw [branch, shift, shiftAll_eq_map, branch, ← spanOf_shift]
  rw [spanOf_of_ne_nil (by simpa using h) (0 + n) 0]

end Tree

namespace Token

@[simp]
theorem isSignificant_shift (n : Nat) (t : Token) : (t.shift n).isSignificant = t.isSignificant := rfl

/-- A text at another offset has the same tokens at other offsets. -/
theorem scanFrom_add (start n : Nat) (atLineStart : Bool) (text : Text) :
    scanFrom (start + n) atLineStart text = (scanFrom start atLineStart text).map (shift n) := by
  fun_induction scanFrom start atLineStart text with
  | case1 start atLineStart =>
    rw [scanFrom]
    rfl
  | case2 start atLineStart c cs token ih =>
    rw [scanFrom, List.map_cons, ← ih]
    have hstop : (first (start + n) atLineStart c cs).span.stop = token.span.stop + n := by
      simp only [token, first_span_stop]
      exact Nat.add_right_comm start n _
    rw [hstop]
    rfl

/-! ### A token stays in its line -/

/-- A class that a character does not belong to goes no further than to this character. -/
theorem run_stop {p : Char → Bool} {b : Char} (hb : p b = false) (line rest : Text) :
    run p (line ++ b :: rest) = run p line := by
  induction line with
  | nil => simp [run, hb]
  | cons c line ih =>
    cases hc : p c with
    | false => simp [run, hc]
    | true =>
      rw [run, run] at ih
      rw [run, run, List.cons_append, List.takeWhile_cons_of_pos hc, List.takeWhile_cons_of_pos hc,
        List.length_cons, List.length_cons, ih]

theorem run_le (p : Char → Bool) (cs : Text) : run p cs ≤ cs.length :=
  (List.takeWhile_sublist p).length_le

theorem delimited_le (kind : Kind) (close : Char) (cs : Text) :
    (delimited kind close cs).2 ≤ cs.length := by
  have hle := run_le (fun c => c != close && !Text.isRowBreak c) cs
  rw [delimited]
  split
  · -- the closing character is one of those that are left
    rename_i hclosed
    have hlt : run (fun c => c != close && !Text.isRowBreak c) cs < cs.length := by
      by_contra hge
      rw [List.drop_eq_nil_of_le (by omega)] at hclosed
      exact absurd hclosed (by simp)
    exact hlt
  · exact hle

theorem percent_le (cs : Text) : (percent cs).2 ≤ cs.length := by
  fun_cases percent cs with
  | case1 c d cs h kind n hn =>
    have hle := delimited_le .charVal '"' cs
    rw [hn] at hle
    exact Nat.add_le_add_right hle 2
  | case2 c d cs h =>
    have hle := run_le isNumValChar (d :: cs)
    simp only [List.length_cons] at hle ⊢
    omega
  | case3 => exact Nat.zero_le _
  | case4 => exact Nat.zero_le _

/-- A token takes no more than there is. -/
theorem lexeme_le (c : Char) (cs : Text) : (lexeme c cs).2 ≤ cs.length := by
  have hone : ∀ d : Char, cs.head? = some d → 1 ≤ cs.length := by
    intro d hd
    cases cs with
    | nil => exact absurd hd (by simp)
    | cons e cs => simp
  fun_cases lexeme c cs
  case case1 => exact run_le _ _
  case case2 =>
    dsimp only
    split
    · exact hone _ ‹_›
    · exact Nat.zero_le _
  case case4 => exact run_le _ _
  case case5 => exact run_le _ _
  case case6 => exact run_le _ _
  case case7 => exact hone _ ‹_›
  case case15 => exact delimited_le _ _ _
  case case16 => exact delimited_le _ _ _
  case case17 => exact percent_le _
  all_goals exact Nat.zero_le _

section

variable {b : Char} (hb : Text.isRowBreak b = true) (line rest : Text)
include hb

/-- A class without line breaks goes no further than to the end of the line. -/
theorem run_line {p : Char → Bool} (hn : p '\n' = false) (hr : p '\r' = false) :
    run p (line ++ b :: rest) = run p line := by
  refine run_stop ?_ line rest
  simp only [Text.isRowBreak, Bool.or_eq_true, beq_iff_eq] at hb
  rcases hb with rfl | rfl
  · exact hn
  · exact hr

/-- A delimiter is closed in its line or not at all. -/
theorem delimited_line (kind : Kind) (close : Char) (hclose : Text.isRowBreak close = false) :
    delimited kind close (line ++ b :: rest) = delimited kind close line := by
  have hle := run_le (fun c => c != close && !Text.isRowBreak c) line
  have hstop : (b != close && !Text.isRowBreak b) = false := by
    rw [hb]
    exact Bool.and_false _
  have hne : b ≠ close := by
    rintro rfl
    rw [hb] at hclose
    exact absurd hclose (by decide)
  have hhead : ((line ++ b :: rest).drop
      (run (fun c => c != close && !Text.isRowBreak c) line)).head? = some close ↔
      (line.drop (run (fun c => c != close && !Text.isRowBreak c) line)).head? = some close := by
    rw [List.drop_append_of_le_length hle, List.head?_append]
    cases (line.drop (run (fun c => c != close && !Text.isRowBreak c) line)).head? with
    | none => simpa using hne
    | some d => simp
  rw [delimited, delimited, run_stop hstop]
  simp only [hhead]

/-- What a percent sign starts ends in its line. -/
theorem percent_line : percent (line ++ b :: rest) = percent line := by
  have hquote : b ≠ '"' := by
    rintro rfl
    exact absurd hb (by decide)
  have halnum : b.isAlphanum = false := by
    simp only [Text.isRowBreak, Bool.or_eq_true, beq_iff_eq] at hb
    rcases hb with rfl | rfl <;> rfl
  have hbase : ∀ d : Char, d.isAlpha = true → b.toLower ≠ d := by
    intro d hd
    simp only [Text.isRowBreak, Bool.or_eq_true, beq_iff_eq] at hb
    rcases hb with rfl | rfl <;> rintro rfl <;> exact absurd hd (by decide)
  rcases line with _ | ⟨c, _ | ⟨d, line⟩⟩
  · -- the break itself follows the percent sign
    cases rest with
    | nil => rfl
    | cons d rest =>
      simp [percent, hbase 's' rfl, hbase 'i' rfl, hbase 'b' rfl, hbase 'd' rfl, hbase 'x' rfl]
  · -- the break follows the character after it
    simp [percent, hquote, halnum]
  · have hrun := run_line (p := isNumValChar) hb (d :: line) rest rfl rfl
    simp only [List.cons_append] at hrun ⊢
    simp only [percent, delimited_line hb line rest .charVal '"' rfl, hrun]

/-- A token that is no line break is decided by its line alone. -/
theorem lexeme_line {c : Char} (hc : Text.isRowBreak c = false) :
    lexeme c (line ++ b :: rest) = lexeme c line := by
  have hslash : (line ++ b :: rest).head? = some '/' ↔ line.head? = some '/' := by
    have hne : b ≠ '/' := by
      rintro rfl
      exact absurd hb (by decide)
    rw [List.head?_append]
    cases line.head? with
    | none => simpa using hne
    | some d => simp
  have hreturn : c ≠ '\r' := by
    rintro rfl
    exact absurd hc (by decide)
  simp only [lexeme, if_neg hreturn, hslash, percent_line hb line rest,
    delimited_line hb line rest .charVal '"' rfl,
    delimited_line hb line rest .proseVal '>' rfl,
    run_line (p := isSpaceOrTab) hb line rest rfl rfl,
    run_line (p := fun d => !Text.isRowBreak d) hb line rest rfl rfl,
    run_line (p := isNameChar) hb line rest rfl rfl,
    run_line (p := Char.isDigit) hb line rest rfl rfl]

end

/-! ### Two pieces of a text -/

theorem endsLine_drop {text : Text} (h : text.EndsLine Text.isRowBreak) (n : Nat) :
    Text.EndsLine Text.isRowBreak (text.drop n) := by
  intro b hb
  rw [List.getLast?_drop] at hb
  split at hb
  · exact absurd hb (by simp)
  · exact h b hb

/-- A character of whole lines that is no line break is followed by one. -/
theorem exists_line {c : Char} {cs : Text} (hends : Text.EndsLine Text.isRowBreak (c :: cs))
    (hc : Text.isRowBreak c = false) : ∃ line b, cs = line ++ [b] ∧ Text.isRowBreak b = true := by
  cases hlast : cs.getLast? with
  | none =>
    rw [List.getLast?_eq_none_iff] at hlast
    have hbreak := hends c (by rw [hlast]; rfl)
    rw [hc] at hbreak
    exact absurd hbreak (by decide)
  | some b =>
    obtain ⟨line, hline⟩ := List.getLast?_eq_some_iff.mp hlast
    exact ⟨line, b, hline, hends b (by rw [List.getLast?_cons, hlast]; rfl)⟩

/-- In front of a text that does not start with an LF, a token in whole lines stays what it is. -/
theorem lexeme_append {c : Char} {cs rest : Text} (hends : Text.EndsLine Text.isRowBreak (c :: cs))
    (hrest : rest.head? ≠ some '\n') : lexeme c (cs ++ rest) = lexeme c cs := by
  cases hc : Text.isRowBreak c with
  | true =>
    have hhead : (cs ++ rest).head? = some '\n' ↔ cs.head? = some '\n' := by
      cases cs with
      | nil => simpa using hrest
      | cons d cs => simp
    rw [lexeme_break hc, lexeme_break hc]
    simp only [hhead]
  | false =>
    obtain ⟨line, b, rfl, hb⟩ := exists_line hends hc
    rw [List.append_assoc, List.singleton_append, lexeme_line hb line rest hc,
      lexeme_line hb line [] hc]

/-- In whole lines, only a line break is a last token. -/
theorem newline_of_drop {c : Char} {cs : Text} (hends : Text.EndsLine Text.isRowBreak (c :: cs))
    (h : cs.drop (lexeme c cs).2 = []) : (lexeme c cs).1 = .newline := by
  cases hc : Text.isRowBreak c with
  | true => rw [lexeme_break hc]
  | false =>
    obtain ⟨line, b, rfl, hb⟩ := exists_line hends hc
    have hle := lexeme_le c line
    rw [lexeme_line hb line [] hc, List.drop_append_of_le_length hle] at h
    exact absurd h (by simp)

/-- The tokens of whole lines stand before those of what follows, in which the first token starts a
line. -/
theorem scanFrom_append (start : Nat) (atLineStart : Bool) (text rest : Text)
    (hends : Text.EndsLine Text.isRowBreak text) (hrest : rest.head? ≠ some '\n')
    (hline : text = [] → atLineStart = true) :
    ∃ front last, scanFrom start atLineStart text = front ++ [last] ∧ last.kind = .endOfText ∧
      scanFrom start atLineStart (text ++ rest) =
        front ++ scanFrom (start + text.byteLength) true rest := by
  fun_induction scanFrom start atLineStart text with
  | case1 start atLineStart =>
    refine ⟨[], _, rfl, rfl, ?_⟩
    rw [hline rfl]
    rfl
  | case2 start atLineStart c cs token ih =>
    have hlexeme := lexeme_append hends hrest
    have hle := lexeme_le c cs
    have hnext : cs.drop (lexeme c cs).2 = [] → (token.kind == .newline) = true := by
      intro hnil
      exact beq_iff_eq.mpr (newline_of_drop hends hnil)
    have htail : Text.EndsLine Text.isRowBreak (cs.drop (lexeme c cs).2) :=
      endsLine_drop hends ((lexeme c cs).2 + 1)
    obtain ⟨front, last, hfront, hlast, happend⟩ := ih htail hnext
    refine ⟨token :: front, last, by rw [hfront]; rfl, hlast, ?_⟩
    have htoken : first start atLineStart c (cs ++ rest) = token := by
      simp only [token, first, hlexeme, List.take_append_of_le_length hle]
    -- the token and what is left after it make up the first piece
    have hlength : token.span.stop + Text.byteLength (cs.drop (lexeme c cs).2) =
        start + Text.byteLength (c :: cs) := by
      rw [← first_text_append start atLineStart c cs, Text.byteLength_append]
      simp only [token, first_span_stop]
      omega
    rw [List.cons_append, scanFrom, hlexeme, htoken, List.drop_append_of_le_length hle, happend,
      hlength]
    rfl

/-- The tokens of whole lines and those of what follows, moved to their place. -/
theorem significant_append {text rest : Text} (hends : Text.EndsLine Text.isRowBreak text)
    (hrest : rest.head? ≠ some '\n') :
    significant (text ++ rest) =
      significant text ++ (significant rest).map (shift text.byteLength) := by
  obtain ⟨front, last, hfront, hlast, happend⟩ :=
    scanFrom_append 0 true text rest hends hrest fun _ => rfl
  have hend : last.isSignificant = false := by
    rw [isSignificant, hlast]
    rfl
  rw [significant, scan, happend, scanFrom_add, significant, scan, hfront, significant, scan,
    List.filter_append, List.filter_append, List.filter_map]
  simp [hend, Function.comp_def]

/-- A text that starts with neither a blank, nor a line break, nor a comment starts with a token of
an entry. -/
theorem over_significant (c : Char) (cs : Text) (hblank : isSpaceOrTab c = false)
    (hbreak : Text.isRowBreak c = false) (hcomment : c ≠ ';') (n : Nat) :
    Reader.Over ((significant (c :: cs)).map (shift n)) := by
  have hkind : (lexeme c cs).1 ≠ .whitespace ∧ (lexeme c cs).1 ≠ .newline ∧
      (lexeme c cs).1 ≠ .comment := by
    fun_cases lexeme c cs
    case case1 h => rw [hblank] at h; exact absurd h (by decide)
    case case2 h => rw [h] at hbreak; exact absurd hbreak (by decide)
    case case3 h => rw [h] at hbreak; exact absurd hbreak (by decide)
    case case4 h => exact absurd h hcomment
    case case15 => rcases delimited_kind .charVal '"' cs with h | h <;> rw [h] <;> decide
    case case16 => rcases delimited_kind .proseVal '>' cs with h | h <;> rw [h] <;> decide
    case case17 => rcases percent_kind cs with h | h | h <;> rw [h] <;> decide
    all_goals simp
  have hlexical := lexeme_lexical c cs
  have hsig : (first 0 true c cs).isSignificant = true := by
    show ((lexeme c cs).1 != .whitespace && (lexeme c cs).1 != .newline &&
      (lexeme c cs).1 != .endOfText) = true
    revert hkind hlexical
    cases (lexeme c cs).1 <;> simp [Kind.isLexical]
  intro t ht
  rw [significant, scan, scanFrom, List.filter_cons_of_pos hsig, List.map_cons, List.head?_cons,
    Option.some.injEq] at ht
  rw [← ht]
  exact ⟨beq_eq_false_iff_ne.mpr hkind.2.2, rfl⟩

end Token

namespace Grammar

open Reader

/-- Trees move with their tokens. -/
theorem parallel_shift (n : Nat) :
    Parallel (fun t t' => t.shift n = t') fun x x' => x.shift n = x' where
  kind := by
    rintro t _ rfl
    rfl
  line := by
    rintro t _ rfl
    rfl
  core := by
    rintro t _ rfl _
    rfl
  leaf := by
    rintro t _ rfl
    rfl
  branch := by
    intro kind ts ts' hne h
    rw [← List.forall₂_map_left_iff, List.forall₂_eq_eq_eq] at h
    rw [Tree.shift_branch hne, h]
  body := by
    intro before before' ts ts' hne hbefore h
    rw [← List.forall₂_map_left_iff, List.forall₂_eq_eq_eq] at h hbefore
    have hstop : (Tree.spanOf before' 0).stop = (Tree.spanOf before 0).stop + n := by
      rw [← hbefore, Tree.spanOf_of_ne_nil (by simpa using hne) 0 (0 + n), Tree.spanOf_shift]
      rfl
    rw [Tree.shift, Tree.shiftAll_eq_map, ← Tree.spanOf_shift, ← hstop, h]

/-- A rule list at another place. -/
theorem ruleList_shift (limit n : Nat) (ts : List Token) :
    ((ruleList limit).read (ts.map (Token.shift n))).1 =
      ((ruleList limit).read ts).1.map (Tree.shift n) :=
  (parallel_shift n).ruleList_map limit ts

theorem parallel_eq : Parallel Eq Eq where
  kind := by
    rintro t _ rfl
    rfl
  line := by
    rintro t _ rfl
    rfl
  core := by
    rintro t _ rfl _
    rfl
  leaf := by
    rintro t _ rfl
    rfl
  branch := by
    intro kind ts ts' _ h
    rw [List.forall₂_eq_eq_eq] at h
    rw [h]
  body := by
    intro before before' ts ts' _ hbefore h
    rw [List.forall₂_eq_eq_eq] at h hbefore
    rw [h, hbefore]

/-- Before a token that starts an entry, a rule list is read as if it stood alone. -/
theorem ruleList_append (limit : Nat) (ts : List Token) {us : List Token} (hus : Over us) :
    ((ruleList limit).read (ts ++ us)).1 =
      ((ruleList limit).read ts).1 ++ ((ruleList limit).read us).1 := by
  have hsame : List.Forall₂ Eq ts ts := by rw [List.forall₂_eq_eq_eq]
  have halike := alike_of_forall₂ hsame [] us
  rw [List.append_nil] at halike
  obtain ⟨front, hfront, htrees⟩ := parallel_eq.ruleList limit hus halike
  rw [List.forall₂_eq_eq_eq] at htrees
  rw [hfront, htrees]

end Grammar

/-- Entries are read on their own.  A text of whole lines, and after it a text that starts in the first
column with something other than a blank, a line break or a comment, is read to the trees of the first
text followed by those of the second one, moved by the length of the first. -/
theorem parse_append (limit : Nat) (a b : Text)
    (ha : a = [] ∨ a.getLast? = some '\r' ∨ a.getLast? = some '\n')
    (hb : ∃ c cs, b = c :: cs ∧ c ∉ [' ', '\t', '\r', '\n', ';']) :
    (parse limit (a ++ b)).root.children =
      (parse limit a).root.children ++
        (parse limit b).root.children.map (Tree.shift a.byteLength) := by
  obtain ⟨c, cs, rfl, hc⟩ := hb
  simp only [List.mem_cons, List.not_mem_nil, not_or, or_false] at hc
  obtain ⟨hspace, htab, hreturn, hfeed, hcomment⟩ := hc
  have hends : Text.EndsLine Text.isRowBreak a := by
    intro d hd
    rcases ha with rfl | ha | ha
    · exact absurd hd (by simp)
    · rw [ha, Option.some.injEq] at hd
      rw [← hd]
      rfl
    · rw [ha, Option.some.injEq] at hd
      rw [← hd]
      rfl
  have hrest : (c :: cs).head? ≠ some '\n' := by simpa using hfeed
  have hover := Token.over_significant c cs (by simp [Token.isSpaceOrTab, hspace, htab])
    (by simp [Text.isRowBreak, hreturn, hfeed]) hcomment a.byteLength
  show ((Grammar.ruleList limit).read (Token.significant (a ++ c :: cs))).1 = _
  rw [Token.significant_append hends hrest, Grammar.ruleList_append limit _ hover,
    Grammar.ruleList_shift]
  rfl

/-- A group and a string that are left open, and a comment before the rule that follows them. -/
theorem parse_append_left_open :
    let a : Text := "a = (\"x\n;y\r".toList
    let b : Text := "b = a )".toList
    a.getLast? = some '\r' ∧ b.head? = some 'b' ∧
      (parse 1 (a ++ b)).root.children =
        (parse 1 a).root.children ++ (parse 1 b).root.children.map (Tree.shift a.byteLength) := by
  intro a b
  refine ⟨rfl, rfl, parse_append 1 a b (Or.inr (Or.inl rfl)) ⟨'b', " = a )".toList, rfl, ?_⟩⟩
  decide

end Abnf
