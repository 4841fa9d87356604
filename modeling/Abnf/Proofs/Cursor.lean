/-
Scanning with a cursor.

`Token.scan` makes the tokens of a text from the characters that are left of it.  A `Cursor` makes them one by one
from an offset: it looks at the character there or at the one after it, goes on by the bytes of the characters that
it takes, and tells from the byte before a token whether the token starts a line.  Each look cuts the text at the
offset of the cursor (`Text.from?`), which cannot be done inside of a character or past the end of the text.

No step of a cursor fails, and its tokens are those of `Token.scan` (`Scanning.tokens_between`).  For this a
cursor is seen as what stands before it and after it: a step takes some of the characters after it over to those
before it (`Scanning.Takes`), and what a step takes is what the lexeme at its place takes.
-/
import Abnf.Proofs.LineStarts

namespace Abnf

/-! ### Cursors -/

/-- The text from an offset on; none if the offset is inside of a character or past the end of the text. -/
def Text.from? : Nat → Text → Option Text
  | 0, text => some text
  | _ + 1, [] => none
  | n + 1, c :: cs => if c.utf8Size ≤ n + 1 then Text.from? (n + 1 - c.utf8Size) cs else none

/-- An offset into a text. -/
structure Cursor where
  text : Text
  position : Nat

/-- Steps of a cursor; none if one of them cuts the text where this cannot be done. -/
abbrev Scanning (α : Type) : Type := StateT Cursor Option α

namespace Cursor

def rest? (s : Cursor) : Option Text := s.text.from? s.position

/-- The cursor behind a character. -/
def past (s : Cursor) (c : Char) : Cursor := { s with position := s.position + c.utf8Size }

/-- The cursor between two parts of a text. -/
def between (before rest : Text) : Cursor := ⟨before ++ rest, before.byteLength⟩

theorem past_between (before : Text) (c : Char) (cs : Text) :
    (between before (c :: cs)).past c = between (before ++ [c]) cs := by
  simp [past, between, Text.byteLength_append, Text.byteLength]

@[simp]
theorem rest?_between (before rest : Text) : (between before rest).rest? = some rest := by
  show Text.from? before.byteLength (before ++ rest) = some rest
  induction before with
  | nil => cases rest <;> rfl
  | cons c cs ih =>
    obtain ⟨n, hn⟩ : ∃ n, Text.byteLength (c :: cs) = n + 1 :=
      Nat.exists_eq_add_one_of_ne_zero (Nat.ne_of_gt (Text.byteLength_pos (List.cons_ne_nil c cs)))
    have hsize : n + 1 = c.utf8Size + Text.byteLength cs := hn.symm
    rw [hn, List.cons_append, Text.from?, if_pos (by omega), hsize, Nat.add_sub_cancel_left]
    exact ih

/-- A character after a cursor leaves room for it. -/
theorem left_past_lt {s : Cursor} {c : Char} {cs : Text} (h : s.rest? = some (c :: cs)) :
    (s.past c).text.byteLength - (s.past c).position < s.text.byteLength - s.position := by
  have hpos := c.utf8Size_pos
  have hlt : s.position < s.text.byteLength := by
    revert h
    show Text.from? s.position s.text = some (c :: cs) → _
    fun_induction Text.from? s.position s.text with
    | case1 text =>
      rintro ⟨⟩
      exact Text.byteLength_pos (List.cons_ne_nil c cs)
    | case2 => exact fun h => nomatch h
    | case3 n d ds hle ih =>
      intro h
      have := ih h
      rw [Text.byteLength]
      omega
    | case4 => exact fun h => nomatch h
  show s.text.byteLength - (s.position + c.utf8Size) < _
  omega

end Cursor

/-! ### Steps -/

namespace Scanning

def rest : Scanning Text := fun s => s.rest?.map (·, s)

def peek : Scanning (Option Char) := do
  return (← rest).head?

def peekSecond : Scanning (Option Char) := do
  return (← rest)[1]?

/-- Takes a character, if there is one. -/
def bump : Scanning (Option Char) := do
  match ← peek with
  | none => return none
  | some c =>
    modify (·.past c)
    return some c

/-- Takes characters for as long as they are of a class. -/
def eatWhile (p : Char → Bool) (s : Cursor) : Option (Unit × Cursor) :=
  match _h : s.rest? with
  | none => none
  | some [] => some ((), s)
  | some (c :: _) => if p c then eatWhile p (s.past c) else some ((), s)
termination_by s.text.byteLength - s.position
decreasing_by exact Cursor.left_past_lt _h

/-- Takes the characters up to and with a closing one; false if the line ends before it. -/
def eatDelimited (close : Char) (s : Cursor) : Option (Bool × Cursor) :=
  match _h : s.rest? with
  | none => none
  | some [] => some (false, s)
  | some (c :: _) =>
    if Text.isRowBreak c then some (false, s)
    else if c = close then some (true, s.past c)
    else eatDelimited close (s.past c)
termination_by s.text.byteLength - s.position
decreasing_by exact Cursor.left_past_lt _h

def delimited (kind : Kind) (close : Char) : Scanning Kind := do
  return if ← eatDelimited close then kind else .unknown

/-- Takes what follows a percent sign. -/
def percent : Scanning Kind := do
  match ← peek, ← peekSecond with
  | some c, some d =>
    if (c.toLower == 's' || c.toLower == 'i') && d == '"' then
      let _ ← bump
      let _ ← bump
      delimited .charVal '"'
    else if (c.toLower == 'b' || c.toLower == 'd' || c.toLower == 'x') && d.isAlphanum then
      let _ ← bump
      eatWhile Token.isNumValChar
      return .numVal
    else
      return .unknown
  | _, _ => return .unknown

/-- Takes the characters of a token after its first one. -/
def lexeme (c : Char) : Scanning Kind :=
  if Token.isSpaceOrTab c then do eatWhile Token.isSpaceOrTab; return .whitespace
  else if c = '\r' then do
    if (← peek) = some '\n' then let _ ← bump
    return .newline
  else if c = '\n' then return .newline
  else if c = ';' then do eatWhile (fun d => !Text.isRowBreak d); return .comment
  else if c.isAlpha then do eatWhile Token.isNameChar; return .identifier
  else if c.isDigit then do eatWhile Char.isDigit; return .number
  else if c = '=' then do
    if (← peek) = some '/' then
      let _ ← bump
      return .incrementalEquals
    else
      return .equals
  else if c = '/' then return .slash
  else if c = '(' then return .leftParen
  else if c = ')' then return .rightParen
  else if c = '[' then return .leftBracket
  else if c = ']' then return .rightBracket
  else if c = '*' then return .star
  else if c = '"' then delimited .charVal '"'
  else if c = '<' then delimited .proseVal '>'
  else if c = '%' then percent
  else return .unknown

/-- Whether a line starts, by the byte before the cursor. -/
def lineStarts : Scanning Bool := fun s =>
  if s.position = 0 then some (true, s)
  else (s.text.charAt? (s.position - 1)).map fun c => (Text.isRowBreak c, s)

/-- Makes the next token. -/
def next : Scanning Token := do
  let start := (← get).position
  let atLineStart ← lineStarts
  match ← bump with
  | none => return ⟨.endOfText, [], start, atLineStart⟩
  | some c =>
    let kind ← lexeme c
    let s ← get
    return ⟨kind, s.text.slice ⟨start, s.position⟩, start, atLineStart⟩

/-- Makes as many tokens as are asked for. -/
def tokens : Nat → Scanning (List Token)
  | 0 => return []
  | n + 1 => do
    let token ← next
    return token :: (← tokens n)

/-! ### What a step takes -/

theorem bind_of_eq {α β : Type} {x : Scanning α} {f : α → Scanning β} {s s' : Cursor} {a : α}
    (h : x s = some (a, s')) : (x >>= f) s = f a s' := by
  show (x s >>= fun r => f r.1 r.2) = _
  rw [h]
  rfl

theorem get_bind {α : Type} (f : Cursor → Scanning α) (s : Cursor) : (get >>= f) s = f s s := rfl

/-- Whether a step before some characters returns a value and takes some of the characters. -/
def Takes {α : Type} (x : Scanning α) (cs : Text) (a : α) (count : Nat) : Prop :=
  ∀ before, x (.between before cs) = some (a, .between (before ++ cs.take count) (cs.drop count))

section Takes
variable {α β : Type} {cs : Text}

theorem Takes.pure (a : α) : Takes (pure a) cs a 0 := by
  intro before
  rw [List.take_zero, List.drop_zero, List.append_nil]
  rfl

theorem Takes.bind {x : Scanning α} {f : α → Scanning β} {a : α} {b : β} {m n : Nat} (hx : Takes x cs a m)
    (hf : Takes (f a) (cs.drop m) b n) : Takes (x >>= f) cs b (m + n) := by
  intro before
  rw [bind_of_eq (hx before), hf (before ++ cs.take m), List.append_assoc, ← List.take_add, List.drop_drop]

/-- A look takes nothing. -/
theorem Takes.look {x : Scanning α} {f : α → Scanning β} {a : α} {b : β} {n : Nat} (hx : Takes x cs a 0)
    (hf : Takes (f a) cs b n) : Takes (x >>= f) cs b n := by
  rw [← Nat.zero_add n]
  exact hx.bind hf

theorem Takes.map {x : Scanning α} {a : α} {n : Nat} (hx : Takes x cs a n) (f : α → β) :
    Takes (x >>= fun a => Pure.pure (f a)) cs (f a) n := by
  show Takes _ cs (f a) (n + 0)
  exact hx.bind (.pure (f a))

/-- Two lexemes are told apart in the same way by a step and by what it takes. -/
theorem Takes.ite {p : Prop} [Decidable p] {x y : Scanning α} {r q : α × Nat} (hx : p → Takes x cs r.1 r.2)
    (hy : ¬p → Takes y cs q.1 q.2) :
    Takes (if p then x else y) cs (if p then r else q).1 (if p then r else q).2 := by
  by_cases h : p
  · rw [if_pos h, if_pos h]
    exact hx h
  · rw [if_neg h, if_neg h]
    exact hy h

end Takes

theorem takes_rest (cs : Text) : Takes rest cs cs 0 := by
  intro before
  rw [List.take_zero, List.drop_zero, List.append_nil, rest, Cursor.rest?_between]
  rfl

theorem takes_peek (cs : Text) : Takes peek cs cs.head? 0 := (takes_rest cs).map _

theorem takes_peekSecond (cs : Text) : Takes peekSecond cs cs[1]? 0 := (takes_rest cs).map _

theorem takes_bump (c : Char) (cs : Text) : Takes bump (c :: cs) (some c) 1 := by
  have hpast : Takes (modify (·.past c) : Scanning Unit) (c :: cs) () 1 := by
    intro before
    exact congrArg (fun s => some ((), s)) (Cursor.past_between before c cs)
  refine (takes_peek (c :: cs)).look ?_
  exact hpast.map fun _ => some c

theorem takes_bump_nil : Takes bump [] none 0 := (takes_peek []).look (.pure _)

/-! Where a loop stands, it looks at the character there. -/

theorem eatWhile_nil (p : Char → Bool) (before : Text) :
    eatWhile p (.between before []) = some ((), .between before []) := by
  rw [eatWhile]
  split <;> simp_all

theorem eatWhile_cons (p : Char → Bool) (before : Text) (c : Char) (cs : Text) :
    eatWhile p (.between before (c :: cs)) =
      if p c then eatWhile p (.between (before ++ [c]) cs) else some ((), .between before (c :: cs)) := by
  rw [eatWhile]
  split <;> simp_all [Cursor.past_between]

/-- A loop takes the characters of a class. -/
theorem takes_eatWhile (p : Char → Bool) (cs : Text) : Takes (eatWhile p) cs () (Token.run p cs) := by
  induction cs with
  | nil =>
    intro before
    rw [eatWhile_nil]
    simp
  | cons c cs ih =>
    intro before
    rw [eatWhile_cons]
    by_cases hc : p c = true
    · rw [if_pos hc, ih]
      simp [Token.run, hc]
    · rw [if_neg hc]
      simp [Token.run, hc]

theorem eatDelimited_nil (close : Char) (before : Text) :
    eatDelimited close (.between before []) = some (false, .between before []) := by
  rw [eatDelimited]
  split <;> simp_all

theorem eatDelimited_cons (close : Char) (before : Text) (c : Char) (cs : Text) :
    eatDelimited close (.between before (c :: cs)) =
      if Text.isRowBreak c then some (false, .between before (c :: cs))
      else if c = close then some (true, .between (before ++ [c]) cs)
      else eatDelimited close (.between (before ++ [c]) cs) := by
  rw [eatDelimited]
  split <;> simp_all [Cursor.past_between]

/-- A loop takes the characters up to a closing one, with this one if the line has it. -/
theorem takes_eatDelimited {close : Char} (hclose : Text.isRowBreak close = false) (cs : Text) :
    let n := Token.run (fun c => c != close && !Text.isRowBreak c) cs
    Takes (eatDelimited close) cs (decide ((cs.drop n).head? = some close))
      (if (cs.drop n).head? = some close then n + 1 else n) := by
  induction cs with
  | nil =>
    intro n before
    rw [eatDelimited_nil]
    simp
  | cons c cs ih =>
    intro n before
    rw [eatDelimited_cons]
    by_cases hbreak : Text.isRowBreak c = true
    · have hne : c ≠ close := by
        rintro rfl
        rw [hbreak] at hclose
        exact absurd hclose (by decide)
      have hn : n = 0 := by simp [n, Token.run, hbreak]
      rw [if_pos hbreak]
      simp [hn, hne]
    · rw [if_neg hbreak]
      by_cases hc : c = close
      · have hn : n = 0 := by simp [n, Token.run, hc]
        rw [if_pos hc]
        simp [hn, hc]
      · have hn : n = Token.run (fun c => c != close && !Text.isRowBreak c) cs + 1 := by
          simp [n, Token.run, hbreak, hc]
        rw [if_neg hc, ih, hn, List.drop_succ_cons]
        split <;> simp

/-- What follows an open delimiter is taken as its lexeme says. -/
theorem takes_delimited (kind : Kind) {close : Char} (hclose : Text.isRowBreak close = false) (cs : Text) :
    Takes (delimited kind close) cs (Token.delimited kind close cs).1 (Token.delimited kind close cs).2 := by
  have htakes : Takes (delimited kind close) cs _ _ := (takes_eatDelimited hclose cs).map _
  rw [Token.delimited]
  split
  · rename_i hclosed
    simpa only [hclosed, decide_true, if_true] using htakes
  · rename_i hopen
    simpa only [hopen, decide_false, if_false, Bool.false_eq_true] using htakes

/-- What follows a percent sign is taken as its lexeme says. -/
theorem takes_percent (cs : Text) : Takes percent cs (Token.percent cs).1 (Token.percent cs).2 := by
  refine (takes_peek cs).look ((takes_peekSecond cs).look ?_)
  match cs with
  | [] | [_] => exact .pure _
  | c :: d :: cs =>
    rw [Token.percent]
    refine .ite (fun _ => ?_) fun _ => .ite (fun _ => ?_) fun _ => .pure _
    · show Takes _ (c :: d :: cs) (Token.delimited .charVal '"' cs).1 ((Token.delimited .charVal '"' cs).2 + 2)
      rw [Nat.add_comm, Nat.add_assoc 1 1]
      exact (takes_bump c _).bind ((takes_bump d cs).bind (takes_delimited .charVal rfl cs))
    · exact (takes_bump c _).bind ((takes_eatWhile Token.isNumValChar (d :: cs)).map fun _ => Kind.numVal)

/-- The characters after the first one of a token are taken as the lexeme says. -/
theorem takes_lexeme (c : Char) (cs : Text) :
    Takes (lexeme c) cs (Token.lexeme c cs).1 (Token.lexeme c cs).2 := by
  -- both go through the same classes of first characters, in the same order
  rw [lexeme, Token.lexeme]
  refine .ite (fun _ => (takes_eatWhile _ cs).map fun _ => _) fun _ => ?_
  refine .ite (fun _ => (takes_peek cs).look ?_) fun _ => ?_
  · split
    · rename_i hfeed
      obtain ⟨rest, rfl⟩ := List.head?_eq_some_iff.mp hfeed
      exact (takes_bump '\n' rest).map fun _ => Kind.newline
    · exact .pure Kind.newline
  refine .ite (fun _ => .pure _) fun _ => ?_
  refine .ite (fun _ => (takes_eatWhile _ cs).map fun _ => _) fun _ => ?_
  refine .ite (fun _ => (takes_eatWhile _ cs).map fun _ => _) fun _ => ?_
  refine .ite (fun _ => (takes_eatWhile _ cs).map fun _ => _) fun _ => ?_
  refine .ite (fun _ => (takes_peek cs).look ?_) fun _ => ?_
  · refine .ite (fun hslash => ?_) fun _ => .pure _
    obtain ⟨rest, rfl⟩ := List.head?_eq_some_iff.mp hslash
    exact (takes_bump '/' rest).map fun _ => Kind.incrementalEquals
  iterate 6 refine .ite (fun _ => .pure _) fun _ => ?_
  refine .ite (fun _ => takes_delimited _ rfl cs) fun _ => ?_
  refine .ite (fun _ => takes_delimited _ rfl cs) fun _ => ?_
  exact .ite (fun _ => takes_percent cs) fun _ => .pure _

/-! ### Tokens of a cursor -/

/-- The byte before a place tells whether a line starts there. -/
theorem lineStarts_between {atLineStart : Bool} {before rest : Text} (h : Text.Parted atLineStart before rest) :
    lineStarts (.between before rest) = some (atLineStart, .between before rest) := by
  rcases List.eq_nil_or_concat before with rfl | ⟨front, b, rfl⟩
  · have hstart : atLineStart = true := h.endsLine_iff.mpr fun b hb => absurd hb (by simp)
    rw [hstart]
    rfl
  · rw [List.concat_eq_append] at h ⊢
    have hpos := b.utf8Size_pos
    have hlength : Text.byteLength (front ++ [b]) = Text.byteLength front + b.utf8Size := Text.byteLength_append _ _
    have hchar : Text.charAt? (front ++ [b] ++ rest) (Text.byteLength (front ++ [b]) - 1) = some b := by
      rw [List.append_assoc, hlength]
      exact Text.charAt?_append (by omega) (by omega)
    have hflag : atLineStart = Text.isRowBreak b := by
      rw [Bool.eq_iff_iff, h.endsLine_iff, Text.EndsLine, List.getLast?_concat]
      simp
    have hposition : (Cursor.between (front ++ [b]) rest).position ≠ 0 := by
      show Text.byteLength (front ++ [b]) ≠ 0
      omega
    rw [lineStarts, if_neg hposition, hflag]
    exact congrArg (Option.map _) hchar

/-- Between two tokens a cursor makes the one that follows, and goes to its end. -/
theorem next_between {atLineStart : Bool} {before : Text} {c : Char} {cs : Text}
    (h : Text.Parted atLineStart before (c :: cs)) :
    let token := Token.first before.byteLength atLineStart c cs
    next (.between before (c :: cs)) =
      some (token, .between (before ++ token.text) (cs.drop (Token.lexeme c cs).2)) := by
  intro token
  have hbefore : before ++ [c] ++ cs.take (Token.lexeme c cs).2 = before ++ token.text := by
    rw [List.append_assoc]
    rfl
  have hslice : Text.slice (before ++ token.text ++ cs.drop (Token.lexeme c cs).2)
      ⟨before.byteLength, Text.byteLength (before ++ token.text)⟩ = token.text := by
    rw [List.append_assoc, Text.byteLength_append]
    exact Text.slice_append before token.text _
  have hlexeme := takes_lexeme c cs (before ++ [c])
  rw [hbefore] at hlexeme
  rw [next, get_bind, bind_of_eq (lineStarts_between h), bind_of_eq (takes_bump c cs before)]
  show (lexeme c >>= _) (Cursor.between (before ++ [c]) cs) = _
  rw [bind_of_eq hlexeme, get_bind]
  exact congrArg (fun text => some ((⟨_, text, _, _⟩ : Token), _)) hslice

/-- At the end of a text a cursor makes the last token and stays. -/
theorem next_between_nil {atLineStart : Bool} {before : Text} (h : Text.Parted atLineStart before []) :
    next (.between before []) =
      some (⟨.endOfText, [], before.byteLength, atLineStart⟩, .between before []) := by
  have hbump := takes_bump_nil before
  rw [List.take_nil, List.drop_nil, List.append_nil] at hbump
  rw [next, get_bind, bind_of_eq (lineStarts_between h), bind_of_eq hbump]
  rfl

/-- The tokens that a cursor makes are those of the text after it. -/
theorem tokens_between (start : Nat) (atLineStart : Bool) (rest : Text) :
    ∀ before : Text, start = before.byteLength → Text.Parted atLineStart before rest →
      tokens (Token.scanFrom start atLineStart rest).length (.between before rest) =
        some (Token.scanFrom start atLineStart rest, .between (before ++ rest) []) := by
  -- along the tokens: the cursor goes from one place between two of them to the next one
  fun_induction Token.scanFrom start atLineStart rest with
  | case1 start atLineStart =>
    rintro before rfl hparted
    rw [List.length_singleton, tokens, bind_of_eq (next_between_nil hparted), List.append_nil]
    rfl
  | case2 start atLineStart c cs token ih =>
    rintro before rfl hparted
    have hstop : token.span.stop = Text.byteLength (before ++ token.text) := by
      rw [Text.byteLength_append]
      rfl
    have hmore := ih _ hstop (Token.parted_first before c cs)
    rw [List.append_assoc, Token.first_text_append] at hmore
    rw [List.length_cons, tokens, bind_of_eq (next_between hparted), bind_of_eq hmore]
    rfl

/-- From the start of a text a cursor makes its tokens and goes to its end. -/
theorem tokens_scan (text : Text) :
    tokens (Token.scan text).length ⟨text, 0⟩ = some (Token.scan text, ⟨text, text.byteLength⟩) := by
  have hparted : Text.Parted true [] text := ⟨fun _ b hb => absurd hb (by simp), fun h => absurd h (by decide)⟩
  have htokens := tokens_between 0 true text [] rfl hparted
  rwa [List.nil_append, Cursor.between, Cursor.between, List.append_nil] at htokens

end Scanning

end Abnf
