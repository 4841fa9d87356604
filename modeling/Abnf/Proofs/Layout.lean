/-
What the scanner makes of written rules.

A `Word` is a token without its offset.  All the ways to write a rule list have the same words
(`scanWords_of_written`): gaps and ends of lines have none, a gap is never followed by a word that
starts a line, and the end of a line always is.  A token of a rule ends where it should because what
follows it cannot go on with it (`Closed`).
-/
import Abnf.Proofs.AbstractRules
import Abnf.Proofs.Runs

namespace Abnf

/-- A token without its offset. -/
structure Word where
  kind : Kind
  text : Text
  atLineStart : Bool
deriving DecidableEq

namespace Token

def word (t : Token) : Word := ⟨t.kind, t.text, t.atLineStart⟩

/-- The tokens other than comments, without their offsets. -/
def words (ts : List Token) : List Word := (withoutComments ts).map word

/-- Whether tokens of a kind are words: comments and what is left out of trees are none. -/
def isWord : Kind → Bool
  | .whitespace | .newline | .endOfText | .comment => false
  | _ => true

/-- The words of a text. -/
def scanWords (atLineStart : Bool) (text : Text) : List Word :=
  words ((scanFrom 0 atLineStart text).filter isSignificant)

theorem words_filter_cons (t : Token) (ts : List Token) :
    words ((t :: ts).filter isSignificant) =
      (if isWord t.kind then [t.word] else []) ++ words (ts.filter isSignificant) := by
  have hword : isWord t.kind = (t.isSignificant && !t.isComment) := by
    rw [isSignificant, isComment]
    cases t.kind <;> rfl
  rw [hword]
  cases hs : t.isSignificant with
  | false => rw [List.filter_cons_of_neg (by simp [hs])]; rfl
  | true =>
    rw [List.filter_cons_of_pos hs]
    cases hc : t.isComment with
    | false => rw [words, withoutComments_cons hc]; rfl
    | true => rw [words, withoutComments, List.filter_cons_of_neg (by simp [hc])]; rfl

/-- The words of a text do not depend on the offset at which it starts. -/
theorem words_scanFrom (start : Nat) (atLineStart : Bool) (text : Text) :
    ∀ start' : Nat, words ((scanFrom start atLineStart text).filter isSignificant) =
      words ((scanFrom start' atLineStart text).filter isSignificant) := by
  fun_induction scanFrom start atLineStart text with
  | case1 start atLineStart =>
    intro start'
    rw [scanFrom]
    rfl
  | case2 start atLineStart c cs token ih =>
    intro start'
    rw [scanFrom, words_filter_cons, words_filter_cons]
    exact congrArg _ (ih _)

theorem scanWords_nil (atLineStart : Bool) : scanWords atLineStart [] = [] := by
  rw [scanWords, scanFrom]
  rfl

theorem scanWords_cons (atLineStart : Bool) (c : Char) (cs : Text) :
    scanWords atLineStart (c :: cs) =
      (if isWord (lexeme c cs).1 then [⟨(lexeme c cs).1, c :: cs.take (lexeme c cs).2, atLineStart⟩]
        else []) ++
        scanWords ((lexeme c cs).1 == .newline) (cs.drop (lexeme c cs).2) := by
  rw [scanWords, scanFrom, words_filter_cons]
  exact congrArg _ (words_scanFrom _ _ _ 0)

/-- A lexeme that is a word. -/
theorem scanWords_word {atLineStart : Bool} {c : Char} {w rest : Text} {kind : Kind}
    (h : lexeme c (w ++ rest) = (kind, w.length)) (hkind : isWord kind = true) :
    scanWords atLineStart (c :: (w ++ rest)) =
      ⟨kind, c :: w, atLineStart⟩ :: scanWords false rest := by
  have hnewline : (kind == .newline) = false := by
    refine beq_eq_false_iff_ne.mpr ?_
    rintro rfl
    exact absurd hkind (by decide)
  rw [scanWords_cons, h, if_pos hkind, hnewline, List.take_left, List.drop_left]
  rfl

/-! ### Longest runs -/

/-- A class takes all of a piece of text whose rest starts with another character. -/
theorem run_append {p : Char → Bool} {w rest : Text} (hw : w.all p = true)
    (hrest : rest.head?.all (!p ·) = true) : run p (w ++ rest) = w.length := by
  induction w with
  | nil =>
    cases rest with
    | nil => rfl
    | cons c rest =>
      have hc : p c = false := by simpa using hrest
      simp [run, hc]
  | cons c w ih =>
    rw [List.all_cons, Bool.and_eq_true] at hw
    have hrun := ih hw.2
    rw [run] at hrun ⊢
    rw [List.cons_append, List.takeWhile_cons_of_pos hw.1, List.length_cons, hrun, List.length_cons]

theorem drop_run (p : Char → Bool) (cs : Text) : cs.drop (run p cs) = cs.dropWhile p := by
  induction cs with
  | nil => rfl
  | cons c cs ih =>
    by_cases hc : p c = true
    · rw [run, List.takeWhile_cons_of_pos hc, List.dropWhile_cons_of_pos hc]
      exact ih
    · rw [run, List.takeWhile_cons_of_neg hc, List.dropWhile_cons_of_neg hc]
      rfl

/-! ### Gaps -/

theorem lexeme_blank {c : Char} (hc : isSpaceOrTab c = true) (cs : Text) :
    lexeme c cs = (.whitespace, run isSpaceOrTab cs) := by
  rw [lexeme, if_pos hc]

/-- Blanks have no words, and after them no word starts a line. -/
theorem scanWords_blank (atLineStart : Bool) {c : Char} (hc : isSpaceOrTab c = true) (rest : Text) :
    scanWords atLineStart (c :: rest) = scanWords false rest := by
  rw [scanWords_cons, lexeme_blank hc]
  show scanWords false (rest.drop _) = _
  cases rest with
  | nil => rfl
  | cons d rest =>
    by_cases hd : isSpaceOrTab d = true
    · -- both sides skip the same run of blanks
      rw [scanWords_cons false d, lexeme_blank hd, drop_run, drop_run, List.dropWhile_cons_of_pos hd]
      rfl
    · rw [drop_run, List.dropWhile_cons_of_neg hd]

theorem lexeme_break {c : Char} (hc : Text.isRowBreak c = true) (cs : Text) :
    lexeme c cs = (.newline, if c = '\r' ∧ cs.head? = some '\n' then 1 else 0) := by
  simp only [Text.isRowBreak, Bool.or_eq_true, beq_iff_eq] at hc
  rcases hc with rfl | rfl
  · rfl
  · by_cases h : cs.head? = some '\n' <;> simp [lexeme, isSpaceOrTab, h]

/-- A line break has no words, and after it a word starts a line. -/
theorem scanWords_break (atLineStart : Bool) {c : Char} (hc : Text.isRowBreak c = true)
    (rest : Text) : scanWords atLineStart (c :: rest) = scanWords true rest := by
  rw [scanWords_cons, lexeme_break hc]
  show scanWords true (rest.drop _) = _
  split
  · -- a CRLF is one line break, and its LF alone would be one too
    rename_i h
    cases rest with
    | nil => simp at h
    | cons d rest =>
      have hd : d = '\n' := by simpa using h.2
      rw [hd, scanWords_cons true, lexeme_break (by rfl)]
      rfl
  · rfl

/-- A comment that goes up to the end of its line has no words. -/
theorem scanWords_comment (atLineStart : Bool) {body rest : Text}
    (hbody : ∀ c ∈ body, Text.isRowBreak c = false) (hrest : rest.head?.all Text.isRowBreak = true) :
    scanWords atLineStart (';' :: (body ++ rest)) = scanWords false rest := by
  have hrun : run (fun d => !Text.isRowBreak d) (body ++ rest) = body.length := by
    refine run_append (List.all_eq_true.mpr fun c hc => ?_) ?_
    · rw [hbody c hc]; rfl
    · simpa using hrest
  have hlexeme : lexeme ';' (body ++ rest) = (.comment, body.length) := by
    rw [← hrun]
    rfl
  rw [scanWords_cons, hlexeme, List.drop_left]
  rfl

/-! ### Words of a rule -/

/-- What follows cannot go on with a name, a number or a numeric value. -/
def Closed (rest : Text) : Prop := rest.head?.all (!isNumValChar ·) = true

theorem closed_cons {c : Char} (h : isNumValChar c = false) (rest : Text) : Closed (c :: rest) := by
  simp [Closed, h]

theorem Closed.head {rest : Text} (h : Closed rest) {p : Char → Bool}
    (hp : ∀ c, p c = true → isNumValChar c = true) : rest.head?.all (!p ·) = true := by
  cases rest with
  | nil => rfl
  | cons c rest =>
    have hc : isNumValChar c = false := by simpa [Closed] using h
    cases hpc : p c with
    | false => simp [hpc]
    | true => rw [hp c hpc] at hc; exact absurd hc (by decide)

theorem lexeme_letter {c : Char} (hc : c.isAlpha = true) (cs : Text) :
    lexeme c cs = (.identifier, run isNameChar cs) := by
  have hne : ∀ d : Char, d.isAlpha = false → c ≠ d := by
    rintro d hd rfl
    rw [hc] at hd
    exact absurd hd (by decide)
  have hblank : ¬isSpaceOrTab c = true := by
    simp [isSpaceOrTab, hne ' ' rfl, hne '\t' rfl]
  rw [lexeme, if_neg hblank, if_neg (hne _ rfl), if_neg (hne _ rfl), if_neg (hne _ rfl), if_pos hc]

theorem not_isAlpha_of_isDigit {c : Char} (hc : c.isDigit = true) : ¬c.isAlpha = true := by
  intro halpha
  have hdigit : (decide (c.val ≥ '0'.val) && decide (c.val ≤ '9'.val)) = true := hc
  have hletter : (decide (c.val ≥ 'A'.val ∧ c.val ≤ 'Z'.val) ||
      (decide (c.val ≥ 'a'.val) && decide (c.val ≤ 'z'.val))) = true := halpha
  simp only [Bool.or_eq_true, Bool.and_eq_true, decide_eq_true_eq, UInt32.le_iff_toNat_le,
    ge_iff_le] at hdigit hletter
  have h9 : '9'.val.toNat = 57 := rfl
  have hA : 'A'.val.toNat = 65 := rfl
  have ha : 'a'.val.toNat = 97 := rfl
  omega

theorem lexeme_digit {c : Char} (hc : c.isDigit = true) (cs : Text) :
    lexeme c cs = (.number, run Char.isDigit cs) := by
  have hne : ∀ d : Char, d.isDigit = false → c ≠ d := by
    rintro d hd rfl
    rw [hc] at hd
    exact absurd hd (by decide)
  have hblank : ¬isSpaceOrTab c = true := by
    simp [isSpaceOrTab, hne ' ' rfl, hne '\t' rfl]
  rw [lexeme, if_neg hblank, if_neg (hne _ rfl), if_neg (hne _ rfl), if_neg (hne _ rfl),
    if_neg (not_isAlpha_of_isDigit hc), if_pos hc]

theorem delimited_closed {kind : Kind} {close : Char} {body : Text}
    (hbody : body.all (fun c => c != close && !Text.isRowBreak c) = true) (rest : Text) :
    delimited kind close (body ++ close :: rest) = (kind, body.length + 1) := by
  have hstop : (close :: rest).head?.all (fun c => !(c != close && !Text.isRowBreak c)) = true := by
    simp
  rw [delimited, run_append hbody hstop, List.drop_left]
  exact if_pos rfl

end Token

namespace Abstract

open Token

theorem scanWords_name (n : Name) (atLineStart : Bool) {rest : Text} (hrest : Closed rest) :
    scanWords atLineStart (n.text ++ rest) =
      ⟨.identifier, n.text, atLineStart⟩ :: scanWords false rest := by
  obtain ⟨text, hvalid⟩ := n
  cases text with
  | nil => simp at hvalid
  | cons c w =>
    simp only [List.head?_cons, Option.any_some, List.all_cons, Bool.and_eq_true] at hvalid
    refine scanWords_word ?_ rfl
    rw [lexeme_letter hvalid.1, run_append hvalid.2.2 (hrest.head fun d hd => ?_)]
    simp only [isNameChar, isNumValChar, Bool.or_eq_true] at hd ⊢
    rcases hd with hd | hd
    · exact Or.inl (Or.inl hd)
    · exact Or.inr hd

theorem scanWords_digits (n : Digits) (atLineStart : Bool) {rest : Text}
    (hrest : rest.head?.all (!Char.isDigit ·) = true) :
    scanWords atLineStart (n.text ++ rest) =
      ⟨.number, n.text, atLineStart⟩ :: scanWords false rest := by
  obtain ⟨text, hvalid⟩ := n
  cases text with
  | nil => simp at hvalid
  | cons c w =>
    simp only [List.isEmpty_cons, Bool.not_false, Bool.true_and, List.all_cons,
      Bool.and_eq_true] at hvalid
    refine scanWords_word ?_ rfl
    rw [lexeme_digit hvalid.1, run_append hvalid.2 hrest]

theorem scanWords_value (v : Value) (atLineStart : Bool) {rest : Text} (hrest : Closed rest) :
    scanWords atLineStart (v.text ++ rest) =
      ⟨v.kind, v.text, atLineStart⟩ :: scanWords false rest := by
  cases v with
  | string mark body =>
    cases mark with
    | none =>
      refine scanWords_word (w := body.text ++ ['"']) ?_ rfl
      rw [List.append_assoc, List.length_append]
      exact delimited_closed body.valid rest
    | some mark =>
      refine scanWords_word (w := mark.letter :: '"' :: (body.text ++ ['"'])) ?_ rfl
      have hbody : delimited .charVal '"' (body.text ++ (['"'] ++ rest)) = (.charVal, _) :=
        delimited_closed body.valid rest
      show percent (mark.letter :: '"' :: (body.text ++ ['"'] ++ rest)) = _
      rw [percent, if_pos (by rw [mark.valid]; rfl), List.append_assoc, hbody]
      simp [Value.kind]
  | numeric n =>
    obtain ⟨base, text, hvalid⟩ := n
    cases text with
    | nil => simp at hvalid
    | cons d w =>
      simp only [List.head?_cons, Option.any_some, Bool.and_eq_true] at hvalid
      obtain ⟨⟨hbase, hd⟩, hall⟩ := hvalid
      refine scanWords_word (w := base :: d :: w) ?_ rfl
      have hmark : ¬((base.toLower == 's' || base.toLower == 'i') && d == '"') = true := by
        intro h
        simp only [Bool.or_eq_true, beq_iff_eq, Bool.and_eq_true] at h hbase
        rcases h.1 with h | h <;> rw [h] at hbase <;> simp at hbase
      show percent (base :: d :: (w ++ rest)) = _
      rw [percent, if_neg hmark, if_pos (by rw [hbase, hd]; rfl), ← List.cons_append,
        run_append hall (hrest.head fun _ h => h)]
      simp only [Value.kind, List.length_cons, Prod.mk.injEq, true_and]
      omega
  | prose body =>
    refine scanWords_word (w := body.text ++ ['>']) ?_ rfl
    rw [List.append_assoc, List.length_append]
    exact delimited_closed body.valid rest

/-! ### Gaps between words -/

theorem scanWords_lineBreak (atLineStart : Bool) {b : Text} (h : LineBreak b) (rest : Text) :
    scanWords atLineStart (b ++ rest) = scanWords true rest := by
  cases h with
  | crlf =>
    show scanWords atLineStart ('\r' :: '\n' :: rest) = _
    rw [scanWords_break _ (by rfl), scanWords_break _ (by rfl)]
  | lf => exact scanWords_break _ (by rfl) rest
  | cr => exact scanWords_break _ (by rfl) rest

/-- After the end of a line, a word starts a line. -/
theorem scanWords_lineEnd (atLineStart : Bool) {e : Text} (h : LineEnd e) (rest : Text) :
    scanWords atLineStart (e ++ rest) = scanWords true rest := by
  cases h with
  | plain hb => exact scanWords_lineBreak _ hb rest
  | @comment body b hbody hb =>
    have hhead : (b ++ rest).head?.all Text.isRowBreak = true := by cases hb <;> rfl
    rw [List.cons_append, List.append_assoc, scanWords_comment _ hbody hhead]
    exact scanWords_lineBreak _ hb rest

/-- After a gap, no word starts a line that did not do so before. -/
theorem scanWords_gap {g : Text} (h : Gap g) (rest : Text) :
    scanWords false (g ++ rest) = scanWords false rest := by
  induction h with
  | nil => rfl
  | blank hc _ ih => rw [List.cons_append, scanWords_blank _ hc, ih]
  | fold he hc _ ih =>
    rw [List.append_assoc, scanWords_lineEnd _ he, List.cons_append, scanWords_blank _ hc, ih]

/-- A line without a rule has no words. -/
theorem scanWords_skip (atLineStart : Bool) {g e : Text} (hg : Gap g) (he : LineEnd e) (rest : Text) :
    scanWords atLineStart (g ++ (e ++ rest)) = scanWords true rest := by
  cases hg with
  | nil => exact scanWords_lineEnd _ he rest
  | blank hc hg =>
    rw [List.cons_append, scanWords_blank _ hc, scanWords_gap hg, scanWords_lineEnd _ he]
  | fold he' hc hg =>
    rw [List.append_assoc, scanWords_lineEnd _ he', List.cons_append, scanWords_blank _ hc,
      scanWords_gap hg, scanWords_lineEnd _ he]

theorem closed_lineEnd {e : Text} (h : LineEnd e) (rest : Text) : Closed (e ++ rest) := by
  cases h with
  | plain hb => cases hb <;> exact closed_cons (by rfl) _
  | comment _ _ => exact closed_cons (by rfl) _

theorem isNumValChar_blank {c : Char} (h : isSpaceOrTab c = true) : isNumValChar c = false := by
  simp only [isSpaceOrTab, Bool.or_eq_true, beq_iff_eq] at h
  rcases h with rfl | rfl <;> rfl

/-- A gap cannot go on with a word. -/
theorem closed_gap {g : Text} (h : Gap g) {rest : Text} (hrest : g = [] → Closed rest) :
    Closed (g ++ rest) := by
  cases h with
  | nil => exact hrest rfl
  | blank hc _ => exact closed_cons (isNumValChar_blank hc) _
  | fold he _ _ =>
    rw [List.append_assoc]
    exact closed_lineEnd he _

/-! ### The words of a rule list -/

def Digits.words (n : Digits) : List Word := [⟨.number, n.text, false⟩]

def Repeat.words : Repeat → List Word
  | exactly count => count.words
  | between low high =>
    low.elim [] Digits.words ++ ⟨.star, ['*'], false⟩ :: high.elim [] Digits.words

mutual

def Element.words : Element → List Word
  | .name n => [⟨.identifier, n.text, false⟩]
  | .value v => [⟨v.kind, v.text, false⟩]
  | .group body => ⟨.leftParen, ['('], false⟩ :: (body.words ++ [⟨.rightParen, [')'], false⟩])
  | .option body => ⟨.leftBracket, ['['], false⟩ :: (body.words ++ [⟨.rightBracket, [']'], false⟩])

def Repetition.words : Repetition → List Word
  | .mk count element => count.elim [] Repeat.words ++ element.words

def Concatenation.words : Concatenation → List Word
  | .one r => r.words
  | .cons r c => r.words ++ c.words

def Alternation.words : Alternation → List Word
  | .one c => c.words
  | .cons c a => c.words ++ ⟨.slash, ['/'], false⟩ :: a.words

end

/-- The words of a rule; only the first one starts a line. -/
def Rule.words (r : Rule) : List Word :=
  ⟨.identifier, r.name.text, true⟩ ::
    ⟨if r.incremental then .incrementalEquals else .equals, r.sign, false⟩ :: r.body.words

/-- A lexeme of one character. -/
theorem scanWords_char {atLineStart : Bool} {c : Char} {rest : Text} {kind : Kind}
    (h : lexeme c rest = (kind, 0)) (hkind : isWord kind = true) :
    scanWords atLineStart (c :: rest) = ⟨kind, [c], atLineStart⟩ :: scanWords false rest :=
  scanWords_word (w := []) h hkind

theorem scanWords_repeat (r : Repeat) {rest : Text}
    (hrest : rest.head?.all (!Char.isDigit ·) = true) :
    scanWords false (r.text ++ rest) = r.words ++ scanWords false rest := by
  cases r with
  | exactly count => exact scanWords_digits count false hrest
  | between low high =>
    have hhigh : scanWords false ('*' :: (high.elim [] Digits.text ++ rest)) =
        ⟨.star, ['*'], false⟩ :: (high.elim [] Digits.words ++ scanWords false rest) := by
      rw [scanWords_char (show lexeme '*' _ = (.star, 0) from rfl) rfl]
      cases high with
      | none => rfl
      | some n => exact congrArg _ (scanWords_digits n false hrest)
    rw [Repeat.text, Repeat.words, List.append_assoc, List.append_assoc, List.cons_append,
      List.cons_append, ← hhigh]
    cases low with
    | none => rfl
    | some n => exact scanWords_digits n false rfl

/-- The first character of an element is neither a digit nor a slash. -/
theorem head_of_element {e : Element} {t : Text} (h : e.Written t) :
    ∃ c u, t = c :: u ∧ c.isDigit = false ∧ c ≠ '/' := by
  cases h with
  | name n =>
    obtain ⟨text, hvalid⟩ := n
    cases text with
    | nil => simp at hvalid
    | cons c w =>
      have hc : c.isAlpha = true := by
        simp only [List.head?_cons, Option.any_some, Bool.and_eq_true] at hvalid
        exact hvalid.1
      refine ⟨c, w, rfl, ?_, ?_⟩
      · cases hd : c.isDigit
        · rfl
        · exact absurd hc (not_isAlpha_of_isDigit hd)
      · rintro rfl
        exact absurd hc (by decide)
  | value v =>
    cases v with
    | string mark body => cases mark <;> exact ⟨_, _, rfl, rfl, by decide⟩
    | numeric n => exact ⟨_, _, rfl, rfl, by decide⟩
    | prose body => exact ⟨_, _, rfl, rfl, by decide⟩
  | group _ _ _ => exact ⟨_, _, rfl, rfl, by decide⟩
  | option _ _ _ => exact ⟨_, _, rfl, rfl, by decide⟩

theorem Digits.head_ne_slash (n : Digits) (rest : Text) : (n.text ++ rest).head? ≠ some '/' := by
  obtain ⟨text, hvalid⟩ := n
  cases text with
  | nil => simp at hvalid
  | cons c w =>
    intro h
    have hc : c = '/' := by simpa using h
    rw [hc] at hvalid
    simp at hvalid

theorem head_of_repetition {r : Repetition} {t : Text} (h : r.Written t) (rest : Text) :
    (t ++ rest).head? ≠ some '/' := by
  cases h with
  | plain he =>
    obtain ⟨c, u, rfl, -, hc⟩ := head_of_element he
    simpa using hc
  | counted count he =>
    rw [List.append_assoc]
    cases count with
    | exactly n => exact n.head_ne_slash _
    | between low high =>
      cases low with
      | none => simp [Repeat.text]
      | some n =>
        rw [Repeat.text, List.append_assoc]
        exact n.head_ne_slash _

/-- No alternation starts with a slash. -/
theorem head_of_alternation {a : Alternation} {t : Text} (h : a.Written t) (rest : Text) :
    (t ++ rest).head? ≠ some '/' := by
  have hconcatenation : ∀ {c : Concatenation} {t : Text}, c.Written t → ∀ rest : Text,
      (t ++ rest).head? ≠ some '/' := by
    intro c t h rest
    cases h with
    | one hr => exact head_of_repetition hr rest
    | cons hr _ _ _ =>
      rw [List.append_assoc]
      exact head_of_repetition hr _
  cases h with
  | one hc => exact hconcatenation hc rest
  | cons hc _ _ _ =>
    rw [List.append_assoc]
    exact hconcatenation hc _

/-- What a pair of brackets encloses, with its gaps. -/
theorem scanWords_bracketed {a : Alternation} {g t g' : Text} {opener closer : Char}
    {openKind closeKind : Kind} (hopen : ∀ rest, lexeme opener rest = (openKind, 0))
    (hclose : ∀ rest, lexeme closer rest = (closeKind, 0)) (hwords : isWord openKind = true)
    (hwords' : isWord closeKind = true) (hclosed : isNumValChar closer = false) (hg : Gap g)
    (hg' : Gap g')
    (ht : ∀ {rest : Text}, Closed rest → scanWords false (t ++ rest) = a.words ++ scanWords false rest)
    (rest : Text) :
    scanWords false (opener :: (g ++ (t ++ (g' ++ [closer]))) ++ rest) =
      ⟨openKind, [opener], false⟩ :: (a.words ++ [⟨closeKind, [closer], false⟩]) ++
        scanWords false rest := by
  have hend : Closed (g' ++ (closer :: rest)) := closed_gap hg' fun _ => closed_cons hclosed rest
  simp only [List.cons_append, List.append_assoc, List.nil_append]
  rw [scanWords_char (hopen _) hwords, scanWords_gap hg, ht hend, scanWords_gap hg',
    scanWords_char (hclose _) hwords']

mutual

theorem scanWords_element : ∀ (e : Element) {t rest : Text}, e.Written t → Closed rest →
    scanWords false (t ++ rest) = e.words ++ scanWords false rest
  | .name n, _, _, .name _, hrest => scanWords_name n false hrest
  | .value v, _, _, .value _, hrest => scanWords_value v false hrest
  | .group a, _, rest, .group hg ht hg', _ =>
    scanWords_bracketed (fun _ => rfl) (fun _ => rfl) rfl rfl rfl hg hg'
      (fun hrest => scanWords_alternation a ht hrest) rest
  | .option a, _, rest, .option hg ht hg', _ =>
    scanWords_bracketed (fun _ => rfl) (fun _ => rfl) rfl rfl rfl hg hg'
      (fun hrest => scanWords_alternation a ht hrest) rest

theorem scanWords_repetition : ∀ (r : Repetition) {t rest : Text}, r.Written t → Closed rest →
    scanWords false (t ++ rest) = r.words ++ scanWords false rest
  | .mk none e, _, _, .plain he, hrest => scanWords_element e he hrest
  | .mk (some count) e, _, rest, .counted _ he, hrest => by
    obtain ⟨c, u, htext, hdigit, -⟩ := head_of_element he
    have hhead : ∀ rest : Text, ((c :: u) ++ rest).head?.all (!Char.isDigit ·) = true := by
      intro rest
      simp [hdigit]
    rw [List.append_assoc, scanWords_repeat count (by rw [htext]; exact hhead rest),
      scanWords_element e he hrest, Repetition.words, List.append_assoc]
    rfl

theorem scanWords_concatenation : ∀ (c : Concatenation) {t rest : Text}, c.Written t →
    Closed rest → scanWords false (t ++ rest) = c.words ++ scanWords false rest
  | .one r, _, _, .one hr, hrest => scanWords_repetition r hr hrest
  | .cons r c, _, rest, .cons hr hg hne hc, hrest => by
    rw [List.append_assoc, scanWords_repetition r hr, List.append_assoc, scanWords_gap hg,
      scanWords_concatenation c hc hrest, Concatenation.words, List.append_assoc]
    rw [List.append_assoc]
    exact closed_gap hg fun h => absurd h hne

theorem scanWords_alternation : ∀ (a : Alternation) {t rest : Text}, a.Written t →
    Closed rest → scanWords false (t ++ rest) = a.words ++ scanWords false rest
  | .one c, _, _, .one hc, hrest => scanWords_concatenation c hc hrest
  | .cons c a, _, rest, .cons hc hg hg' ha, hrest => by
    rw [List.append_assoc, scanWords_concatenation c hc, List.append_assoc, scanWords_gap hg,
      List.cons_append, scanWords_char (show lexeme '/' _ = (.slash, 0) from rfl) rfl,
      List.append_assoc, scanWords_gap hg', scanWords_alternation a ha hrest, Alternation.words,
      List.append_assoc]
    · rfl
    · rw [List.append_assoc]
      exact closed_gap hg fun _ => closed_cons (by rfl) _

end

theorem head_of_gap {g rest : Text} (h : Gap g) (hrest : rest.head? ≠ some '/') :
    (g ++ rest).head? ≠ some '/' := by
  cases h with
  | nil => exact hrest
  | @blank c g hc _ =>
    intro h
    have hslash : c = '/' := by simpa using h
    rw [hslash] at hc
    exact absurd hc (by decide)
  | fold he _ _ =>
    cases he with
    | plain hb => cases hb <;> simp
    | comment _ _ => simp

/-- The sign of a rule, before something that does not start with a slash. -/
theorem scanWords_sign (r : Rule) {rest : Text} (hrest : rest.head? ≠ some '/') :
    scanWords false (r.sign ++ rest) =
      ⟨if r.incremental then .incrementalEquals else .equals, r.sign, false⟩ ::
        scanWords false rest := by
  unfold Rule.sign
  cases r.incremental with
  | true => exact scanWords_word (w := ['/']) (by rfl) rfl
  | false =>
    have hlexeme : lexeme '=' rest = (.equals, 0) := by
      show (if rest.head? = some '/' then _ else _) = _
      rw [if_neg hrest]
    exact scanWords_char hlexeme rfl

/-- A rule has the words of its parts, and ends with its line. -/
theorem scanWords_rule {r : Rule} {t : Text} (h : r.Written t) (rest : Text) :
    scanWords true (t ++ rest) = r.words ++ scanWords true rest := by
  obtain ⟨hg, hg', ht, hg'', he⟩ := h
  simp only [List.append_assoc]
  have hsign : ∀ u : Text, Closed (r.sign ++ u) := by
    intro u
    unfold Rule.sign
    cases r.incremental <;> exact closed_cons (by rfl) _
  rw [scanWords_name r.name true (closed_gap hg fun _ => hsign _), scanWords_gap hg,
    scanWords_sign r (head_of_gap hg' (head_of_alternation ht _)), scanWords_gap hg',
    scanWords_alternation r.body ht (closed_gap hg'' fun _ => closed_lineEnd he rest),
    scanWords_gap hg'', scanWords_lineEnd false he]
  rfl

/-- However a rule list is written, its words are those of its rules. -/
theorem scanWords_of_written {rs : List Rule} {t : Text} (h : Written rs t) :
    scanWords true t = rs.flatMap Rule.words := by
  induction h with
  | nil => exact scanWords_nil true
  | skip hg he _ ih => rw [scanWords_skip _ hg he, ih]
  | rule hr _ ih => rw [scanWords_rule hr, ih, List.flatMap_cons]

end Abstract

end Abnf
