/-
Texts whose names are spelled in another way.

Put another name in the place of a name of a text, and leave everything else as it is: the text has the
same tokens as before, in the same lines, but for the spelling of that name (`scanFrom_respelled`).  A
name cannot be taken into the token before it, since a token that goes on with a letter takes all the
letters that follow, and it cannot take in what is after it, since the old name did not.

* `Text.StartsAlike`: all that a token can see of the names after it;
* `Token.lexeme_congr`: a token before texts that start alike, unless it is unknown.  A percent sign
  alone is such a token, and before another name it may start a numeric value.
-/
import Abnf.Proofs.Locality

namespace Abnf

namespace Text

theorem ne_of_isAlpha {c d : Char} (hc : c.isAlpha = true) (hd : d.isAlpha = false) : c ≠ d := by
  rintro rfl
  rw [hc] at hd
  exact absurd hd (by decide)

/-- Texts that start with the same character, with two letters, or not at all. -/
def StartsAlike (rest rest' : Text) : Prop :=
  rest'.head? = rest.head? ∨
    ∃ c c', rest.head? = some c ∧ rest'.head? = some c' ∧ c.isAlpha = true ∧ c'.isAlpha = true

namespace StartsAlike

variable {rest rest' : Text} (h : StartsAlike rest rest')
include h

theorem append (w : Text) : StartsAlike (w ++ rest) (w ++ rest') := by
  cases w with
  | nil => exact h
  | cons c w => exact Or.inl rfl

/-- A class that does not tell letters apart does not tell the texts apart. -/
theorem all_head {p : Char → Bool} {v : Bool} (hp : ∀ c, c.isAlpha = true → p c = v) :
    rest'.head?.all p = rest.head?.all p := by
  rcases h with h | ⟨c, c', hc, hc', hletter, hletter'⟩
  · rw [h]
  · rw [hc, hc', Option.all_some, Option.all_some, hp c hletter, hp c' hletter']

theorem head_iff {d : Char} (hd : d.isAlpha = false) : rest'.head? = some d ↔ rest.head? = some d := by
  rcases h with h | ⟨c, c', hc, hc', hletter, hletter'⟩
  · rw [h]
  · rw [hc, hc', Option.some.injEq, Option.some.injEq]
    exact iff_of_false (ne_of_isAlpha hletter' hd) (ne_of_isAlpha hletter hd)

end StartsAlike

end Text

namespace Token

open Text (StartsAlike)

/-! ### Tokens before texts that start alike -/

/-- A class that takes exactly a piece of text off the front. -/
theorem run_eq_length {p : Char → Bool} {w rest : Text} (h : run p (w ++ rest) = w.length) :
    w.all p = true ∧ rest.head?.all (!p ·) = true := by
  induction w with
  | nil =>
    cases rest with
    | nil => exact ⟨rfl, rfl⟩
    | cons c rest =>
      refine ⟨rfl, ?_⟩
      by_contra hc
      have hpos : p c = true := by simpa using hc
      rw [List.nil_append, run, List.takeWhile_cons_of_pos hpos] at h
      exact absurd h (by simp)
  | cons c w ih =>
    by_cases hc : p c = true
    · rw [List.cons_append, run, List.takeWhile_cons_of_pos hc, List.length_cons, List.length_cons,
        Nat.add_right_cancel_iff] at h
      obtain ⟨hw, hrest⟩ := ih h
      exact ⟨by rw [List.all_cons, hc, hw]; rfl, hrest⟩
    · rw [List.cons_append, run, List.takeWhile_cons_of_neg hc] at h
      exact absurd h (by simp)

theorem run_congr {p : Char → Bool} {v : Bool} (hp : ∀ c, c.isAlpha = true → p c = v)
    {w rest rest' : Text} (h : StartsAlike rest rest') (hw : run p (w ++ rest) = w.length) :
    run p (w ++ rest') = w.length := by
  obtain ⟨hall, hrest⟩ := run_eq_length hw
  refine run_append hall ?_
  rw [h.all_head fun c hc => congrArg (!·) (hp c hc), hrest]

/-- A delimiter that is closed stays so whatever comes after it. -/
theorem delimited_congr {kind : Kind} {close : Char} {w rest : Text} (rest' : Text)
    (hlen : (delimited kind close (w ++ rest)).2 = w.length)
    (hknown : (delimited kind close (w ++ rest)).1 ≠ .unknown) :
    delimited kind close (w ++ rest') = delimited kind close (w ++ rest) := by
  rw [delimited] at hlen hknown
  split at hlen
  · rename_i hclosed
    -- the last character of the token closes it
    rcases List.eq_nil_or_concat w with rfl | ⟨body, d, rfl⟩
    · exact absurd hlen (by simp)
    · rw [List.concat_eq_append, List.append_assoc, List.singleton_append, List.length_append,
        List.length_singleton, Nat.add_right_cancel_iff] at hlen
      rw [List.concat_eq_append, List.append_assoc, List.singleton_append, hlen, List.drop_left,
        List.head?_cons, Option.some.injEq] at hclosed
      rw [hclosed] at hlen ⊢
      have hbody := (run_eq_length hlen).1
      rw [List.concat_eq_append, List.append_assoc, List.append_assoc]
      exact (delimited_closed hbody rest').trans (delimited_closed hbody rest).symm
  · rename_i hopen
    exact absurd (if_neg hopen ▸ rfl) hknown

theorem isNumValChar_of_isAlphanum {c : Char} (h : c.isAlphanum = true) : isNumValChar c = true := by
  rw [isNumValChar, h]
  rfl

/-- What is known after a percent sign has a base or a mark, and something after it. -/
theorem percent_pos {cs : Text} (hknown : (percent cs).1 ≠ .unknown) : 2 ≤ (percent cs).2 := by
  revert hknown
  fun_cases percent cs with
  | case1 c d cs h kind n hn => exact fun _ => Nat.le_add_left 2 n
  | case2 c d cs h hbase =>
    intro _
    rw [Bool.and_eq_true] at hbase
    have hd := isNumValChar_of_isAlphanum hbase.2
    rw [run, List.takeWhile_cons_of_pos hd, List.length_cons]
    omega
  | case3 => exact fun hknown => absurd rfl hknown
  | case4 => exact fun hknown => absurd rfl hknown

theorem percent_congr {w rest rest' : Text} (h : StartsAlike rest rest')
    (hlen : (percent (w ++ rest)).2 = w.length) (hknown : (percent (w ++ rest)).1 ≠ .unknown) :
    percent (w ++ rest') = percent (w ++ rest) := by
  have hpos := percent_pos hknown
  rw [hlen] at hpos
  rcases w with _ | ⟨c, _ | ⟨d, w⟩⟩
  · exact absurd hpos (by simp)
  · exact absurd hpos (by simp)
  · simp only [List.cons_append, percent] at hlen hknown ⊢
    split
    · rename_i hmark
      rw [if_pos hmark] at hlen hknown
      rw [delimited_congr rest' (by simpa using hlen) hknown]
    · rename_i hmark
      rw [if_neg hmark] at hlen hknown
      split
      · rename_i hbase
        rw [if_pos hbase] at hlen
        have hrun : run isNumValChar (d :: w ++ rest) = (d :: w).length := by
          simp only [List.length_cons, List.cons_append] at hlen ⊢
          omega
        have hrun' := run_congr (v := true)
          (fun c hc => isNumValChar_of_isAlphanum (isAlphanum_of_isAlpha hc)) h hrun
        rw [← List.cons_append, ← List.cons_append, hrun, hrun']
      · rfl

/-- A token that is a run of some class. -/
theorem lexeme_congr_run {c : Char} {kind : Kind} {p : Char → Bool} {v : Bool}
    (hlexeme : ∀ cs, lexeme c cs = (kind, run p cs)) (hp : ∀ d, d.isAlpha = true → p d = v)
    {w rest rest' : Text} (h : StartsAlike rest rest')
    (hlen : (lexeme c (w ++ rest)).2 = w.length) :
    lexeme c (w ++ rest') = lexeme c (w ++ rest) := by
  rw [hlexeme] at hlen
  have hrun : run p (w ++ rest) = w.length := hlen
  rw [hlexeme, hlexeme, hrun, run_congr hp h hrun]

/-- A known token stays what it is before texts that start alike. -/
theorem lexeme_congr {c : Char} {w rest rest' : Text} (h : StartsAlike rest rest')
    (hlen : (lexeme c (w ++ rest)).2 = w.length) (hknown : (lexeme c (w ++ rest)).1 ≠ .unknown) :
    lexeme c (w ++ rest') = lexeme c (w ++ rest) := by
  have hne : ∀ d e : Char, d.isAlpha = true → e.isAlpha = false → d ≠ e :=
    fun _ _ hd he => Text.ne_of_isAlpha hd he
  by_cases hblank : isSpaceOrTab c = true
  · refine lexeme_congr_run (v := false) (lexeme_blank hblank) (fun d hd => ?_) h hlen
    simp [isSpaceOrTab, hne d ' ' hd rfl, hne d '\t' hd rfl]
  by_cases hbreak : Text.isRowBreak c = true
  · rw [lexeme_break hbreak, lexeme_break hbreak]
    simp only [(h.append w).head_iff (d := '\n') rfl]
  by_cases hletter : c.isAlpha = true
  · refine lexeme_congr_run (v := true) (lexeme_letter hletter) (fun d hd => ?_) h hlen
    exact isNameChar_of_isAlpha hd
  by_cases hdigit : c.isDigit = true
  · refine lexeme_congr_run (v := false) (lexeme_digit hdigit) (fun d hd => ?_) h hlen
    exact Bool.eq_false_iff.mpr fun hd' => not_isAlpha_of_isDigit hd' hd
  -- the signs that look at what follows them, and those that do not
  by_cases hsemi : c = ';'
  · rw [hsemi] at hlen ⊢
    refine lexeme_congr_run (v := true) (fun _ => rfl) (fun d hd => ?_) h hlen
    simp [Text.isRowBreak, hne d '\n' hd rfl, hne d '\r' hd rfl]
  by_cases hequals : c = '='
  · rw [hequals]
    show (if (w ++ rest').head? = some '/' then _ else _) =
      if (w ++ rest).head? = some '/' then _ else _
    simp only [(h.append w).head_iff (d := '/') rfl]
  by_cases hquote : c = '"'
  · rw [hquote] at hlen hknown ⊢
    exact delimited_congr rest' hlen hknown
  by_cases hless : c = '<'
  · rw [hless] at hlen hknown ⊢
    exact delimited_congr rest' hlen hknown
  by_cases hpercent : c = '%'
  · rw [hpercent] at hlen hknown ⊢
    exact percent_congr h hlen hknown
  · simp only [Text.isRowBreak, Bool.or_eq_true, beq_iff_eq, not_or] at hbreak
    simp only [lexeme, if_neg hblank, if_neg hbreak.1, if_neg hbreak.2, if_neg hsemi, if_neg hletter,
      if_neg hdigit, if_neg hequals, if_neg hquote, if_neg hless, if_neg hpercent]

/-! ### Tokens with other names -/

/-- Another text for each token: its own, or for a name another name. -/
def Respells (spell : Token → Text) : Prop :=
  ∀ t, spell t = t.text ∨
    t.kind = .identifier ∧ ∃ c w, spell t = c :: w ∧ c.isAlpha = true ∧ w.all isNameChar = true

/-- A token and the one that stands in its place. -/
structure Respelled (spell : Token → Text) (t t' : Token) : Prop where
  kind : t'.kind = t.kind
  line : t'.atLineStart = t.atLineStart
  text : t'.text = spell t

section

variable {spell : Token → Text} (hspell : Respells spell)
include hspell

/-- With other names, a text starts as it did or with the letter of another name. -/
theorem startsAlike_respelled (start : Nat) (atLineStart : Bool) (text : Text) :
    StartsAlike text ((scanFrom start atLineStart text).flatMap spell) := by
  cases text with
  | nil =>
    rw [scanFrom]
    rcases hspell ⟨.endOfText, [], start, atLineStart⟩ with hsame | ⟨hkind, -⟩
    · exact Or.inl (by rw [List.flatMap_singleton, hsame])
    · simp at hkind
  | cons c cs =>
    rw [scanFrom, List.flatMap_cons]
    rcases hspell (first start atLineStart c cs) with hsame | ⟨hkind, d, w, hname, hletter, -⟩
    · exact Or.inl (by rw [hsame]; rfl)
    · exact Or.inr ⟨c, d, rfl, by rw [hname]; rfl, isAlpha_of_identifier hkind, hletter⟩

/-- The text for a token is a token of the same kind before a text that starts like the rest. -/
theorem lexeme_respelled (start : Nat) (atLineStart : Bool) {c : Char} {cs rest' : Text}
    (hknown : (lexeme c cs).1 ≠ .unknown) (h : StartsAlike (cs.drop (lexeme c cs).2) rest') :
    ∃ d w, spell (first start atLineStart c cs) = d :: w ∧
      lexeme d (w ++ rest') = ((lexeme c cs).1, w.length) := by
  have hlen : (cs.take (lexeme c cs).2).length = (lexeme c cs).2 := by
    rw [List.length_take]
    exact Nat.min_eq_left (lexeme_le c cs)
  rcases hspell (first start atLineStart c cs) with hsame | ⟨hkind, d, w, hname, hletter, hall⟩
  · refine ⟨c, cs.take (lexeme c cs).2, hsame, ?_⟩
    have hcongr := lexeme_congr (w := cs.take (lexeme c cs).2) (c := c) h
    rw [List.take_append_drop] at hcongr
    rw [hcongr hlen.symm hknown, hlen]
  · refine ⟨d, w, hname, ?_⟩
    -- what follows a name goes on with none
    have hrun : run isNameChar (cs.take (lexeme c cs).2 ++ cs.drop (lexeme c cs).2) =
        (cs.take (lexeme c cs).2).length := by
      rw [List.take_append_drop, hlen, lexeme_letter (isAlpha_of_identifier hkind)]
    have hrest : rest'.head?.all (!isNameChar ·) = true := by
      rw [h.all_head (v := false) fun e he => ?_]
      · exact (run_eq_length hrun).2
      · rw [isNameChar_of_isAlpha he]
        rfl
    rw [lexeme_letter hletter, run_append hall hrest]
    exact congrArg (·, w.length) hkind.symm

/-- A text with other names has the same tokens but for the names. -/
theorem scanFrom_respelled (start : Nat) (atLineStart : Bool) (text : Text)
    (hknown : ∀ t ∈ scanFrom start atLineStart text, t.kind ≠ .unknown) :
    ∀ start' : Nat, List.Forall₂ (Respelled spell) (scanFrom start atLineStart text)
      (scanFrom start' atLineStart ((scanFrom start atLineStart text).flatMap spell)) := by
  fun_induction scanFrom start atLineStart text with
  | case1 start atLineStart =>
    intro start'
    rcases hspell ⟨.endOfText, [], start, atLineStart⟩ with hsame | ⟨hkind, -⟩
    · rw [List.flatMap_singleton, hsame, scanFrom]
      exact .cons ⟨rfl, rfl, hsame.symm⟩ .nil
    · simp at hkind
  | case2 start atLineStart c cs token ih =>
    intro start'
    have hrest := startsAlike_respelled hspell token.span.stop (token.kind == .newline)
      (cs.drop (lexeme c cs).2)
    obtain ⟨d, w, hname, hlexeme⟩ := lexeme_respelled hspell start atLineStart
      (hknown token List.mem_cons_self) hrest
    have htext : spell token = d :: w := hname
    rw [List.flatMap_cons, htext, List.cons_append, scanFrom]
    refine .cons ⟨?_, rfl, ?_⟩ ?_
    · show (lexeme d _).1 = (lexeme c cs).1
      rw [hlexeme]
    · show d :: List.take _ _ = spell token
      rw [hlexeme, List.take_left, htext]
    · have hkind : (first start' atLineStart d
          (w ++ (scanFrom token.span.stop (token.kind == .newline)
            (cs.drop (lexeme c cs).2)).flatMap spell)).kind = token.kind := by
        show (lexeme d _).1 = (lexeme c cs).1
        rw [hlexeme]
      rw [hlexeme, List.drop_left, hkind]
      exact ih (fun t ht => hknown t (List.mem_cons_of_mem _ ht)) _

/-- The same for the tokens that are part of trees. -/
theorem significant_respelled {text : Text} (hknown : ∀ t ∈ scan text, t.kind ≠ .unknown) :
    List.Forall₂ (Respelled spell) (significant text)
      (significant ((scan text).flatMap spell)) := by
  refine List.rel_filter (fun t t' h => ?_) (scanFrom_respelled hspell 0 true text hknown 0)
  simp only [isSignificant, h.kind]

end

end Token

end Abnf
