/-
What the scanner makes of a text.

The tokens of a text stand side by side: each starts where the one before it stopped, and none but
the last is empty.  So a token is known by its span (`eq_of_span_eq`), the span covers the text of the
token (`slice_span`), and every byte of a text belongs to a token (`exists_mem_scan_of_lt`).  The kinds
that the scanner gives to tokens are `Kind.isLexical`, and the tokens that are left out of trees hold
nothing but blanks and line breaks (`isLayout_of_mem_text`).
-/
import Abnf.Syntax.Token

namespace Abnf

/-- Whether the scanner makes tokens of this kind out of characters. -/
def Kind.isLexical : Kind → Bool
  | identifier | charVal | numVal | proseVal | comment | number | equals | incrementalEquals | slash
  | leftParen | rightParen | leftBracket | rightBracket | star | unknown | whitespace | newline => true
  | _ => false

/-- Whether a character is one of those that may stand between the tokens of a tree. -/
def Text.isLayout (c : Char) : Bool := c == ' ' || c == '\t' || c == '\r' || c == '\n'

namespace Text

/-- The character to which the byte at an offset belongs. -/
def charAt? : Text → Nat → Option Char
  | [], _ => none
  | c :: cs, offset => if offset < c.utf8Size then some c else charAt? cs (offset - c.utf8Size)

theorem byteLength_pos {text : Text} (h : text ≠ []) : 0 < text.byteLength := by
  cases text with
  | nil => exact absurd rfl h
  | cons c cs =>
    have := c.utf8Size_pos
    simp only [byteLength]
    omega

/-- Every byte of a text belongs to a character, which stands where the byte does. -/
theorem exists_charAt? {text : Text} {offset : Nat} (h : offset < text.byteLength) :
    ∃ before c after, text = before ++ c :: after ∧ text.charAt? offset = some c ∧
      byteLength before ≤ offset ∧ offset < byteLength before + c.utf8Size := by
  induction text generalizing offset with
  | nil => exact absurd h (Nat.not_lt_zero offset)
  | cons d ds ih =>
    by_cases hd : offset < d.utf8Size
    · refine ⟨[], d, ds, rfl, by rw [charAt?, if_pos hd], Nat.zero_le offset, ?_⟩
      simpa [byteLength] using hd
    · have hrest : offset - d.utf8Size < byteLength ds := by
        simp only [byteLength] at h
        omega
      obtain ⟨before, c, after, htext, hc, h1, h2⟩ := ih hrest
      refine ⟨d :: before, c, after, by rw [htext]; rfl, by rw [charAt?, if_neg hd, hc], ?_, ?_⟩
      · simp only [byteLength]
        omega
      · simp only [byteLength]
        omega

theorem dropBytes_append (s t : Text) : dropBytes (byteLength s) (s ++ t) = t := by
  induction s with
  | nil => cases t <;> rfl
  | cons c cs ih =>
    have hpos : 0 < byteLength (c :: cs) := byteLength_pos (List.cons_ne_nil c cs)
    obtain ⟨n, hn⟩ : ∃ n, byteLength (c :: cs) = n + 1 := ⟨byteLength (c :: cs) - 1, by omega⟩
    rw [hn, List.cons_append, dropBytes, ← hn]
    simp only [byteLength, Nat.add_sub_cancel_left]
    exact ih

theorem takeBytes_append (s t : Text) : takeBytes (byteLength s) (s ++ t) = s := by
  induction s with
  | nil =>
    cases t with
    | nil => rfl
    | cons c cs =>
      have := c.utf8Size_pos
      simp only [List.nil_append, takeBytes, byteLength]
      rw [if_neg (by omega)]
  | cons c cs ih =>
    simp only [List.cons_append, takeBytes, byteLength, Nat.add_sub_cancel_left]
    rw [if_pos (by omega), ih]

/-- A piece of a text is what its span covers. -/
theorem slice_append (s t u : Text) :
    slice (s ++ (t ++ u)) ⟨byteLength s, byteLength s + byteLength t⟩ = t := by
  rw [slice, dropBytes_append, Span.length, Nat.add_sub_cancel_left, takeBytes_append]

/-! ### Letters -/

theorem isUpper_iff (c : Char) : c.isUpper = true ↔ 65 ≤ c.toNat ∧ c.toNat ≤ 90 := by
  show decide (c.val ≥ 'A'.val ∧ c.val ≤ 'Z'.val) = true ↔ _
  rw [decide_eq_true_eq, ge_iff_le, UInt32.le_iff_toNat_le, UInt32.le_iff_toNat_le]
  rfl

theorem isLower_iff (c : Char) : c.isLower = true ↔ 97 ≤ c.toNat ∧ c.toNat ≤ 122 := by
  show (decide (c.val ≥ 'a'.val) && decide (c.val ≤ 'z'.val)) = true ↔ _
  rw [Bool.and_eq_true, decide_eq_true_eq, decide_eq_true_eq, ge_iff_le, UInt32.le_iff_toNat_le,
    UInt32.le_iff_toNat_le]
  rfl

theorem toLower_of_not_isUpper {c : Char} (h : c.isUpper = false) : c.toLower = c :=
  dif_neg (of_decide_eq_false h)

theorem toNat_toLower {c : Char} (h : c.isUpper = true) : c.toLower.toNat = c.toNat + 32 := by
  have hrange := (isUpper_iff c).mp h
  have hval : c.toLower.val = c.val + 32 := congrArg Char.val (dif_pos (of_decide_eq_true h))
  show c.toLower.val.toNat = _
  rw [hval, UInt32.toNat_add]
  exact Nat.mod_eq_of_lt (Nat.lt_of_le_of_lt (Nat.add_le_add_right hrange.2 32) (by decide))

theorem isUpper_toLower (c : Char) : c.toLower.isUpper = false := by
  cases h : c.isUpper with
  | false => rw [toLower_of_not_isUpper h, h]
  | true =>
    have hrange := (isUpper_iff c).mp h
    rw [Bool.eq_false_iff, ne_eq, isUpper_iff, toNat_toLower h]
    omega

end Text

namespace Token

/-! ### Characters of names -/

theorem isAlphanum_of_isAlpha {c : Char} (h : c.isAlpha = true) : c.isAlphanum = true := by
  rw [Char.isAlphanum, h]
  rfl

theorem isNameChar_of_isAlpha {c : Char} (h : c.isAlpha = true) : isNameChar c = true := by
  rw [isNameChar, isAlphanum_of_isAlpha h]
  rfl

/-- The characters of names are ASCII. -/
theorem toNat_of_isNameChar {c : Char} (h : isNameChar c = true) : c.toNat ≤ 127 := by
  have hclass : (((decide (c.val ≥ 'A'.val ∧ c.val ≤ 'Z'.val) ||
      (decide (c.val ≥ 'a'.val) && decide (c.val ≤ 'z'.val))) ||
        (decide (c.val ≥ '0'.val) && decide (c.val ≤ '9'.val))) || c == '-') = true := h
  simp only [Bool.or_eq_true, Bool.and_eq_true, decide_eq_true_eq, UInt32.le_iff_toNat_le,
    ge_iff_le, beq_iff_eq] at hclass
  have hZ : 'Z'.val.toNat = 90 := rfl
  have hz : 'z'.val.toNat = 122 := rfl
  have h9 : '9'.val.toNat = 57 := rfl
  show c.val.toNat ≤ 127
  rcases hclass with hclass | rfl
  · omega
  · decide

theorem utf8Size_of_isNameChar {c : Char} (h : isNameChar c = true) : c.utf8Size = 1 :=
  Char.utf8Size_eq_one_iff.mpr (UInt32.le_iff_toNat_le.mpr (toNat_of_isNameChar h))

/-! ### Lexemes -/

/-- A delimiter starts a token of its kind or an unknown one. -/
theorem delimited_kind (kind : Kind) (close : Char) (cs : Text) :
    (delimited kind close cs).1 = kind ∨ (delimited kind close cs).1 = .unknown := by
  unfold delimited
  dsimp only
  split
  · exact Or.inl rfl
  · exact Or.inr rfl

/-- A percent sign starts a string, a numeric value or an unknown token. -/
theorem percent_kind (cs : Text) :
    (percent cs).1 = .charVal ∨ (percent cs).1 = .numVal ∨ (percent cs).1 = .unknown := by
  fun_cases percent cs with
  | case1 c d cs h kind n hn =>
    rcases delimited_kind .charVal '"' cs with hk | hk
    · exact Or.inl (by rw [hn] at hk; exact hk)
    · exact Or.inr (Or.inr (by rw [hn] at hk; exact hk))
  | case2 => exact Or.inr (Or.inl rfl)
  | case3 => exact Or.inr (Or.inr rfl)
  | case4 => exact Or.inr (Or.inr rfl)

/-- The first character and what follows it decide on one of the lexical kinds. -/
theorem lexeme_lexical (c : Char) (cs : Text) : (lexeme c cs).1.isLexical = true := by
  fun_cases lexeme c cs
  case case15 => rcases delimited_kind .charVal '"' cs with h | h <;> rw [h] <;> rfl
  case case16 => rcases delimited_kind .proseVal '>' cs with h | h <;> rw [h] <;> rfl
  case case17 => rcases percent_kind cs with h | h | h <;> rw [h] <;> rfl
  all_goals rfl

/-- Only a letter starts a name. -/
theorem isAlpha_of_identifier {c : Char} {cs : Text} (h : (lexeme c cs).1 = .identifier) :
    c.isAlpha = true := by
  revert h
  fun_cases lexeme c cs
  case case5 hletter => exact fun _ => hletter
  case case15 =>
    intro h
    rcases delimited_kind .charVal '"' cs with hk | hk <;> simp [hk] at h
  case case16 =>
    intro h
    rcases delimited_kind .proseVal '>' cs with hk | hk <;> simp [hk] at h
  case case17 =>
    intro h
    rcases percent_kind cs with hk | hk | hk <;> simp [hk] at h
  all_goals simp

/-- The characters that a class takes off the front of a text belong to the class. -/
theorem mem_take_run {p : Char → Bool} {cs : Text} {d : Char} (h : d ∈ cs.take (run p cs)) :
    p d = true := by
  have htake : cs.take (run p cs) = cs.takeWhile p := by
    have hpre := List.takeWhile_prefix p (l := cs)
    exact (List.prefix_iff_eq_take.mp hpre).symm
  rw [htake] at h
  exact List.all_eq_true.mp (List.all_takeWhile (p := p) (l := cs)) d h

/-- Blanks and line breaks are made of nothing else. -/
theorem isLayout_of_mem_first {start : Nat} {atLineStart : Bool} {c d : Char} {cs : Text}
    (hkind : (lexeme c cs).1 = .whitespace ∨ (lexeme c cs).1 = .newline)
    (hd : d ∈ (first start atLineStart c cs).text) : Text.isLayout d = true := by
  simp only [first, List.mem_cons] at hd
  revert hkind hd
  fun_cases lexeme c cs <;> intro hkind hd
  case case1 hc =>
    have hblank : isSpaceOrTab d = true := by
      rcases hd with rfl | hd
      · exact hc
      · exact mem_take_run hd
    simp only [isSpaceOrTab, Bool.or_eq_true, beq_iff_eq] at hblank
    rcases hblank with rfl | rfl <;> rfl
  case case2 hc =>
    rcases hd with rfl | hd
    · rw [hc]; rfl
    · -- the second character of a CRLF
      rcases cs with _ | ⟨e, cs⟩
      · simp at hd
      · by_cases he : e = '\n'
        · have hd' : d = '\n' := by simpa [he] using hd
          rw [hd']; rfl
        · simp [he] at hd
  case case3 hc =>
    rcases hd with rfl | hd
    · rw [hc]; rfl
    · simp at hd
  -- no other lexeme is of one of the two kinds
  case case15 => rcases delimited_kind .charVal '"' cs with h | h <;> simp [h] at hkind
  case case16 => rcases delimited_kind .proseVal '>' cs with h | h <;> simp [h] at hkind
  case case17 => rcases percent_kind cs with h | h | h <;> simp [h] at hkind
  all_goals simp at hkind

/-! ### Tokens side by side -/

@[simp]
theorem first_span_stop (start : Nat) (atLineStart : Bool) (c : Char) (cs : Text) :
    (first start atLineStart c cs).span.stop =
      start + (first start atLineStart c cs).text.byteLength := rfl

theorem first_text_append (start : Nat) (atLineStart : Bool) (c : Char) (cs : Text) :
    (first start atLineStart c cs).text ++ cs.drop (lexeme c cs).2 = c :: cs := by
  simp [first]

/-- Every token but the end of the text starts with a character. -/
theorem eq_end_or_first_of_mem {start : Nat} {atLineStart : Bool} {text : Text} {t : Token}
    (h : t ∈ scanFrom start atLineStart text) :
    t.kind = .endOfText ∧ t.text = [] ∨
      ∃ c cs, t = first t.start t.atLineStart c cs := by
  fun_induction scanFrom start atLineStart text with
  | case1 start atLineStart =>
    rw [List.mem_singleton] at h
    exact Or.inl ⟨by rw [h], by rw [h]⟩
  | case2 start atLineStart c cs token ih =>
    rcases List.mem_cons.mp h with rfl | h
    · exact Or.inr ⟨c, cs, rfl⟩
    · exact ih h

/-- A token of a tree is of a lexical kind. -/
theorem lexical_of_mem_significant {text : Text} {t : Token} (h : t ∈ significant text) :
    t.kind.isLexical = true := by
  obtain ⟨hmem, hsig⟩ := List.mem_filter.mp h
  rcases eq_end_or_first_of_mem hmem with ⟨hend, -⟩ | ⟨c, cs, ht⟩
  · simp [isSignificant, hend] at hsig
  · rw [ht]
    exact lexeme_lexical c cs

/-- What is left out of trees holds nothing but blanks and line breaks. -/
theorem isLayout_of_mem_text {text : Text} {t : Token} {d : Char} (h : t ∈ scan text)
    (hsig : t.isSignificant = false) (hd : d ∈ t.text) : Text.isLayout d = true := by
  rcases eq_end_or_first_of_mem h with ⟨-, htext⟩ | ⟨c, cs, ht⟩
  · rw [htext] at hd
    exact absurd hd List.not_mem_nil
  · have hlex := lexeme_lexical c cs
    have hkind : t.kind = (lexeme c cs).1 := by rw [ht]; rfl
    rw [ht] at hd
    refine isLayout_of_mem_first ?_ hd
    rw [← hkind] at hlex ⊢
    clear hkind hd ht h
    cases hk : t.kind <;> simp_all [isSignificant, Kind.isLexical]

/-- No token starts before the text does. -/
theorem start_le_of_mem {start : Nat} {atLineStart : Bool} {text : Text} {t : Token}
    (h : t ∈ scanFrom start atLineStart text) : start ≤ t.start := by
  fun_induction scanFrom start atLineStart text with
  | case1 start atLineStart =>
    rw [List.mem_singleton] at h
    exact Nat.le_of_eq (by rw [h])
  | case2 start atLineStart c cs token ih =>
    rcases List.mem_cons.mp h with rfl | h
    · exact Nat.le_refl start
    · have := ih h
      simp only [token, first_span_stop] at this
      omega

/-- Whether a token is not empty and stops before another one starts. -/
def Before (s t : Token) : Prop := s.start < s.span.stop ∧ s.span.stop ≤ t.start

/-- The tokens of a text come one after the other. -/
theorem pairwise_scanFrom (start : Nat) (atLineStart : Bool) (text : Text) :
    (scanFrom start atLineStart text).Pairwise Before := by
  fun_induction scanFrom start atLineStart text with
  | case1 start atLineStart => simp
  | case2 start atLineStart c cs token ih =>
    refine List.pairwise_cons.mpr ⟨fun t ht => ⟨?_, start_le_of_mem ht⟩, ih⟩
    have hpos : 0 < token.text.byteLength := Text.byteLength_pos (by simp [token, first])
    simp only [token, first_span_stop] at hpos ⊢
    show start < _
    omega

/-- Of two tokens of a text one comes before the other. -/
theorem eq_or_before {text : Text} {s t : Token} (hs : s ∈ scan text) (ht : t ∈ scan text) :
    s = t ∨ s.Before t ∨ t.Before s := by
  have hsorted := List.pairwise_iff_getElem.mp (pairwise_scanFrom 0 true text)
  obtain ⟨i, hi, rfl⟩ := List.getElem_of_mem hs
  obtain ⟨j, hj, rfl⟩ := List.getElem_of_mem ht
  rcases Nat.lt_trichotomy i j with hij | rfl | hji
  · exact Or.inr (Or.inl (hsorted i j hi hj hij))
  · exact Or.inl rfl
  · exact Or.inr (Or.inr (hsorted j i hj hi hji))

/-- A token of a text is known by its span. -/
theorem eq_of_span_eq {text : Text} {s t : Token} (hs : s ∈ scan text) (ht : t ∈ scan text)
    (h : s.span = t.span) : s = t := by
  have hstart : s.start = t.start := congrArg Span.start h
  rcases eq_or_before hs ht with heq | ⟨hlt, hle⟩ | ⟨hlt, hle⟩
  · exact heq
  · omega
  · omega

/-- An offset is in one token at most. -/
theorem eq_of_contains {text : Text} {s t : Token} (hs : s ∈ scan text) (ht : t ∈ scan text)
    {offset : Nat} (hso : s.span.contains offset = true) (hto : t.span.contains offset = true) :
    s = t := by
  obtain ⟨hs1, hs2⟩ : s.start ≤ offset ∧ offset < s.span.stop := Span.contains_iff.mp hso
  obtain ⟨ht1, ht2⟩ : t.start ≤ offset ∧ offset < t.span.stop := Span.contains_iff.mp hto
  rcases eq_or_before hs ht with heq | ⟨hlt, hle⟩ | ⟨hlt, hle⟩
  · exact heq
  · omega
  · omega

/-- Among the tokens of some sort, a token of a text is found by its span. -/
theorem span_mem_filter {text : Text} {t : Token} (ht : t ∈ scan text) (p : Token → Bool) :
    t.span ∈ ((scan text).filter p).map span ↔ p t = true := by
  constructor
  · intro h
    obtain ⟨u, hu, hspan⟩ := List.mem_map.mp h
    obtain ⟨hu, hp⟩ := List.mem_filter.mp hu
    rw [← eq_of_span_eq hu ht hspan]
    exact hp
  · intro h
    exact List.mem_map_of_mem (List.mem_filter.mpr ⟨ht, h⟩)

/-- A token stands in its text, after as many bytes as its offset says. -/
theorem exists_append_of_mem {start : Nat} {atLineStart : Bool} {text : Text} {t : Token}
    (h : t ∈ scanFrom start atLineStart text) :
    ∃ before after, text = before ++ (t.text ++ after) ∧ t.start = start + before.byteLength := by
  fun_induction scanFrom start atLineStart text with
  | case1 start atLineStart =>
    rw [List.mem_singleton] at h
    exact ⟨[], [], by rw [h]; rfl, by rw [h]; rfl⟩
  | case2 start atLineStart c cs token ih =>
    have htext := first_text_append start atLineStart c cs
    rcases List.mem_cons.mp h with rfl | h
    · exact ⟨[], _, htext.symm, rfl⟩
    · obtain ⟨before, after, hrest, hstart⟩ := ih h
      refine ⟨token.text ++ before, after, ?_, ?_⟩
      · rw [List.append_assoc, ← hrest]
        exact htext.symm
      · rw [hstart, Text.byteLength_append]
        simp only [token, first_span_stop]
        omega

/-- The span of a token covers its text. -/
theorem slice_span {text : Text} {t : Token} (h : t ∈ scan text) : text.slice t.span = t.text := by
  obtain ⟨before, after, htext, hstart⟩ := exists_append_of_mem h
  rw [htext, span, hstart, Nat.zero_add]
  exact Text.slice_append before t.text after

/-- Every character of a text is in the text of a token that covers it. -/
theorem exists_mem_scanFrom_of_char (start : Nat) (atLineStart : Bool) (text : Text) (c : Char)
    (after : Text) : ∀ before : Text, text = before ++ c :: after →
      ∃ t ∈ scanFrom start atLineStart text, c ∈ t.text ∧ t.start ≤ start + before.byteLength ∧
        start + before.byteLength + c.utf8Size ≤ t.span.stop := by
  fun_induction scanFrom start atLineStart text with
  | case1 =>
    intro before h
    simp at h
  | case2 start atLineStart d ds token ih =>
    intro before h
    have htext : token.text ++ ds.drop (lexeme d ds).2 = before ++ c :: after := by
      rw [← h]
      exact first_text_append start atLineStart d ds
    rcases List.append_eq_append_iff.mp htext with ⟨more, hbefore, hrest⟩ | ⟨own, htoken, hrest⟩
    · -- the character stands after the first token
      obtain ⟨t, ht, hc, h1, h2⟩ := ih more hrest
      have hlen : token.span.stop + Text.byteLength more = start + before.byteLength := by
        rw [hbefore, Text.byteLength_append]
        simp only [token, first_span_stop]
        omega
      exact ⟨t, List.mem_cons_of_mem _ ht, hc, by omega, by omega⟩
    · rcases own with _ | ⟨b, own⟩
      · obtain ⟨t, ht, hc, h1, h2⟩ := ih [] hrest.symm
        have hlen : token.span.stop = start + before.byteLength := by
          rw [show before = token.text by simpa using htoken.symm]
          simp only [token, first_span_stop]
        simp only [Text.byteLength] at h1 h2
        exact ⟨t, List.mem_cons_of_mem _ ht, hc, by omega, by omega⟩
      · obtain ⟨rfl, -⟩ : c = b ∧ after = own ++ _ := by simpa using hrest
        refine ⟨token, List.mem_cons_self, by simp [htoken], ?_, ?_⟩
        · show start ≤ _
          omega
        · show _ ≤ start + token.text.byteLength
          rw [htoken, Text.byteLength_append, Text.byteLength]
          omega

/-- Every byte of a text is covered by a token that holds the character of the byte. -/
theorem exists_mem_scan_of_lt {text : Text} {offset : Nat} (h : offset < text.byteLength) :
    ∃ t ∈ scan text, ∃ c ∈ t.text, text.charAt? offset = some c ∧
      t.span.contains offset = true := by
  obtain ⟨before, c, after, htext, hc, h1, h2⟩ := Text.exists_charAt? h
  obtain ⟨t, ht, hmem, h3, h4⟩ := exists_mem_scanFrom_of_char 0 true text c after before htext
  refine ⟨t, ht, c, hmem, hc, ?_⟩
  have hstart : t.span.start ≤ offset := by
    show t.start ≤ offset
    omega
  rw [Span.contains_iff]
  omega

end Token

end Abnf
