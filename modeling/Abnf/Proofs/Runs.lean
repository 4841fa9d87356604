/-
Runs of tokens.

The tokens of a text other than comments are cut into runs before each token that starts a line
(`Token.runs`).  The grammar reads one run at a time: what is left after an entry are the runs after the
first one (`entry_rest`, `runs_of_next`).

In the middle of a run, `Reader.line` is what is left of it and `Reader.later` are the runs after it.
-/
import Abnf.Proofs.Reading

namespace Abnf

namespace Token

/-- The tokens other than comments. -/
def withoutComments (ts : List Token) : List Token := ts.filter (!·.isComment)

/-- Whether a token is not the first of its line. -/
def isInLine (t : Token) : Bool := !t.atLineStart

/-- The tokens, cut before each token that starts a line. -/
def runs : List Token → List (List Token)
  | [] => []
  | t :: ts => (t :: ts.takeWhile isInLine) :: runs (ts.dropWhile isInLine)
termination_by ts => ts.length
decreasing_by
  have := (List.dropWhile_sublist (l := ts) isInLine).length_le
  simp only [List.length_cons]
  omega

@[simp]
theorem runs_nil : runs [] = [] := by rw [runs]

theorem runs_cons (t : Token) (ts : List Token) :
    runs (t :: ts) = (t :: ts.takeWhile isInLine) :: runs (ts.dropWhile isInLine) := by rw [runs]

/-- The runs, put together, are the tokens. -/
theorem flatten_runs (ts : List Token) : (runs ts).flatten = ts := by
  fun_induction runs ts with
  | case1 => rfl
  | case2 t ts ih =>
    rw [List.flatten_cons, ih, List.cons_append, List.takeWhile_append_dropWhile]

theorem withoutComments_append (ts us : List Token) :
    withoutComments (ts ++ us) = withoutComments ts ++ withoutComments us :=
  List.filter_append ts us

theorem withoutComments_cons {t : Token} (h : t.isComment = false) (us : List Token) :
    withoutComments (t :: us) = t :: withoutComments us :=
  List.filter_cons_of_pos (by simp [h])

end Token

namespace Reader

open Token

/-- What is left of the current rule. -/
def line (ts : List Token) : List Token := (withoutComments ts).takeWhile isInLine

/-- What follows the current rule. -/
def later (ts : List Token) : List Token := (withoutComments ts).dropWhile isInLine

/-- Taking comments changes nothing but the comments. -/
theorem withoutComments_comments (ts : List Token) :
    withoutComments (comments.read ts).2 = withoutComments ts := by
  have hkeeps := congrArg withoutComments (List.takeWhile_append_dropWhile (p := isComment) (l := ts))
  rw [withoutComments_append] at hkeeps
  have hnone : withoutComments (ts.takeWhile isComment) = [] := by
    rw [withoutComments, List.filter_eq_nil_iff]
    intro t ht
    simp [List.all_eq_true.mp List.all_takeWhile t ht]
  rwa [hnone, List.nil_append] at hkeeps

theorem line_comments (ts : List Token) : line (comments.read ts).2 = line ts := by
  rw [line, withoutComments_comments, line]

theorem later_comments (ts : List Token) : later (comments.read ts).2 = later ts := by
  rw [later, withoutComments_comments, later]

theorem line_cons {t : Token} (hc : t.isComment = false) (hl : t.atLineStart = false)
    (us : List Token) : line (t :: us) = t :: line us := by
  rw [line, withoutComments_cons hc, List.takeWhile_cons_of_pos (by simp [isInLine, hl]), line]

theorem later_cons {t : Token} (hc : t.isComment = false) (hl : t.atLineStart = false)
    (us : List Token) : later (t :: us) = later us := by
  rw [later, withoutComments_cons hc, List.dropWhile_cons_of_pos (by simp [isInLine, hl]), later]

/-- Where a rule has no next token, it has none at all. -/
theorem line_eq_nil {ts : List Token} (h : inRule ts = false) :
    line ts = [] ∧ later ts = withoutComments ts := by
  rw [← line_comments, ← later_comments, ← withoutComments_comments]
  cases hn : next? ts with
  | none =>
    rw [comments_of_none hn]
    exact ⟨rfl, rfl⟩
  | some t =>
    obtain ⟨us, hus⟩ := comments_of_next? hn
    have hc := isComment_of_next? hn
    have hl : t.atLineStart = true := by
      cases hl : t.atLineStart
      · simp [inRule, peek?, hn, hl] at h
      · rfl
    rw [hus, line, later, withoutComments_cons hc]
    exact ⟨List.takeWhile_cons_of_neg (by simp [isInLine, hl]),
      List.dropWhile_cons_of_neg (by simp [isInLine, hl])⟩

end Reader

namespace Grammar

open Reader Token

theorem later_ifAt (kind : Kind) (ts : List Token) : later ((ifAt kind).read ts).2 = later ts := by
  cases h : isAt kind ts with
  | false => rw [ifAt, choose_neg h]; rfl
  | true =>
    obtain ⟨t, us, hus, -, hl, hc⟩ := comments_of_isAt h
    rw [ifAt, choose_pos h, token_read hus, ← later_comments ts, hus, later_cons hc hl]

/-- Inside a rule, what follows the rule is not touched. -/
theorem kept_later (limit : Nat) : Kept limit fun _ ts _ us => later us = later ts where
  refl := fun _ _ => rfl
  append := fun h h' => h'.trans h
  skip := fun _ ts => later_comments ts
  name := by
    intro n t us hkind hl
    exact (later_cons (by simp [isComment, hkind]) hl us).symm
  plain := by
    intro n t us hkind hl
    refine (later_cons ?_ hl us).symm
    cases hk : t.kind <;> simp_all [isPlain, isComment]
  wrap := fun _ _ h => h
  bracket := by
    intro n kind opener close t us trees vs hb hkind hl h hstop
    have hc : t.isComment = false := by
      rw [isComment, hkind]
      cases hb <;> decide
    rw [later_ifAt, h, later_cons hc hl]
  atLimit := by
    intro kind opener close t us hb hkind hl
    refine (later_cons ?_ hl us).symm
    rw [isComment, hkind]
    cases hb <;> decide
  stray := by
    intro t us _ _ _ _ hc hl
    exact (later_cons hc hl us).symm

theorem later_afterName (ts : List Token) : later (afterName.read ts).2 = later ts := by
  rw [afterName, seq_read, later_comments]
  cases h : isAtDefinedAs ts with
  | false => rw [choose_neg h]; rfl
  | true =>
    obtain ⟨t, us, hus, -, hl, hc⟩ := comments_of_isAtDefinedAs h
    rw [choose_pos h, node_read, hus, token_read_cons hc, ← later_comments ts, hus, later_cons hc hl]

/-- The elements of a rule go up to the end of its run. -/
theorem elements_rest (limit : Nat) (ts : List Token) :
    inRule ((elements limit).read ts).2 = false ∧
      withoutComments ((elements limit).read ts).2 = later ts := by
  have hstop : inRule ((elements limit).read ts).2 = false :=
    readParts_stop _ _ (stray_consumes _) _
  refine ⟨hstop, ?_⟩
  rw [← (line_eq_nil hstop).2]
  exact (kept_later limit).elements ts

theorem rule_rest (limit : Nat) {t : Token} (h : t.isComment = false) (us : List Token) :
    withoutComments ((rule limit).read (t :: us)).2 = later us := by
  rw [rule_read limit h]
  exact ((elements_rest limit _).2).trans (later_afterName us)

theorem junk_rest {t : Token} (h : t.isComment = false) (us : List Token) :
    withoutComments (junk.read (t :: us)).2 = later us := by
  have hone := comments_cons h us
  have hfirst : (junkItem.read (t :: us)).2 = us := by
    rw [junkItem_read (congrArg Prod.snd hone)]
  rw [junk, node_read, hone, seq_read, hfirst]
  have hstop := readParts_stop inRule junkItem (junkItem_consumes.mono hasNext_of_inRule) us
  show withoutComments (readParts _ _ _ us).2 = _
  rw [← (line_eq_nil hstop).2]
  refine readParts_same later (fun vs hrule => ?_) us
  -- each round takes one token that does not start a line
  obtain ⟨u, ws, hws, hl, hc, -⟩ := comments_of_inRule hrule
  rw [junkItem_read hws, ← later_comments vs, hws, later_cons hc hl]

/-- An entry is one run: what it leaves are the later runs. -/
theorem entry_rest (limit : Nat) {ts us : List Token} {t : Token}
    (hus : (comments.read ts).2 = t :: us) (hc : t.isComment = false) :
    withoutComments ((entry limit).read ts).2 = later us := by
  rw [entry, seq_read, hus]
  cases h : t.isHead with
  | true =>
    rw [choose_pos (by rw [isAtRule_cons hc, h])]
    exact rule_rest limit hc us
  | false =>
    rw [choose_neg (by rw [isAtRule_cons hc, h])]
    exact junk_rest hc us

/-- The first run, and the runs of what the entry leaves. -/
theorem runs_of_next (limit : Nat) {ts us : List Token} {t : Token}
    (hus : (comments.read ts).2 = t :: us) (hc : t.isComment = false) :
    runs (withoutComments ts) =
      (t :: line us) :: runs (withoutComments ((entry limit).read ts).2) := by
  rw [entry_rest limit hus hc, ← withoutComments_comments, hus, withoutComments_cons hc, runs_cons]
  rfl

/-- Where there is no next token, there are no runs. -/
theorem runs_of_hasNext {ts : List Token} (h : hasNext ts = false) : runs (withoutComments ts) = [] := by
  rw [← withoutComments_comments, comments_of_none (by simpa [hasNext] using h)]
  exact runs_nil

end Grammar

end Abnf
