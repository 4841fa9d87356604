/-
Where the elements of a rule end.

Comments are taken when the token after them is, so those after the last token of a rule are left to what comes
next.  There is one exception: where an alternative starts, the comments in front of it are taken at once, also if
no token of the alternative follows.  A rule can end in such a place, which is here called open: before the first
token of its elements, after a slash, after an opener, and after a token that fits nowhere.

Whether a rule ends in an open place can be told from its tokens in one pass (`Progress.after`), with the stack of
brackets of `openAfter`.  `Grammar.Tracked` says that a reader and the pass agree.  As for the check of brackets,
the readers have no stack, and where one of them stops at a token that is not its own, the brackets that nothing
closes can be forgotten (`leavesOpen_of_stops`).  So the elements take the comments after their last token iff
they end in an open place (`flushed_elements`, `getLast?_elements`).
-/
import Abnf.Proofs.ErrorCheck
import Abnf.Proofs.HoverBody

namespace Abnf

/-- Whether a token of this kind fits nowhere in the elements of a rule, whatever brackets are open. -/
def Kind.isStray (k : Kind) : Bool :=
  !(Grammar.isPlain k || k == .identifier || k.isOpener || k.opener?.isSome)

/-- How far the elements of a rule have been read: the brackets that are open, from the innermost to the outermost
one, and whether an alternative starts here. -/
structure Progress where
  stack : List Kind
  isOpen : Bool

namespace Progress

/-- The start of the elements. -/
def start : Progress := ⟨[], true⟩

/-- What a token does.  An alternative starts after a slash and after an opener.  An opener at the nesting limit
is kept as it is, and a token that fits nowhere ends all brackets. -/
def after (limit : Nat) (p : Progress) (t : Token) : Progress :=
  match openAfter limit p.stack t with
  | some stack => if t.kind.isStray then start else ⟨stack, t.kind.isOpener || t.kind == .slash⟩
  | none => if t.kind.isOpener then ⟨p.stack, false⟩ else start

variable {limit : Nat} {stack : List Kind} {isOpen : Bool} {t : Token}

theorem after_name (h : t.kind = .identifier) : after limit ⟨stack, isOpen⟩ t = ⟨stack, false⟩ := by
  simp [after, openAfter, h, Kind.isOpener, Kind.opener?, Kind.isStray]

theorem after_plain (h : Grammar.isPlain t.kind = true) :
    after limit ⟨stack, isOpen⟩ t = ⟨stack, t.kind == .slash⟩ := by
  rw [after, openAfter]
  revert h
  cases t.kind <;> simp [Grammar.isPlain, Kind.isOpener, Kind.opener?, Kind.isStray]

section

variable {kind opener close : Kind} (hb : Grammar.Brackets kind opener close)
include hb

theorem after_opener (h : t.kind = opener) :
    after limit ⟨stack, isOpen⟩ t =
      if stack.length < limit then ⟨opener :: stack, true⟩ else ⟨stack, false⟩ := by
  rw [after, openAfter, h]
  cases hb <;> by_cases hlt : stack.length < limit <;>
    simp [hlt, Kind.isOpener, Kind.isStray, Grammar.isPlain]

theorem after_close (h : t.kind = close) :
    after limit ⟨opener :: stack, isOpen⟩ t = ⟨stack, false⟩ := by
  rw [after, openAfter, h]
  cases hb <;> rfl

end

section

variable (hplain : Grammar.isPlain t.kind = false) (hid : t.kind ≠ .identifier)
  (hparen : t.kind ≠ .leftParen) (hbracket : t.kind ≠ .leftBracket)
include hplain hid hparen hbracket

/-- Outside of all brackets, what starts no part of an alternation fits nowhere. -/
theorem after_stray : after limit ⟨[], isOpen⟩ t = start := by
  rw [after, openAfter]
  revert hplain hid hparen hbracket
  cases t.kind <;> simp [Grammar.isPlain, Kind.isOpener, Kind.opener?, Kind.isStray]

/-- What does not close a bracket does the same without it. -/
theorem after_of_not_close {kind opener close : Kind} (hb : Grammar.Brackets kind opener close)
    (hclose : t.kind ≠ close) :
    after limit ⟨opener :: stack, isOpen⟩ t = after limit ⟨stack, isOpen⟩ t := by
  rw [after, after, openAfter, openAfter]
  revert hplain hid hparen hbracket hclose
  cases hb <;> cases t.kind <;>
    simp [Grammar.isPlain, Kind.isOpener, Kind.opener?, Kind.isStray]

end

end Progress

namespace Grammar

open Reader Token

/-- Whether what is left of a rule ends in an open place. -/
def leavesOpen (limit : Nat) (p : Progress) (ts : List Token) : Bool :=
  ((line ts).foldl (Progress.after limit) p).isOpen

section

variable {limit : Nat} {p : Progress}

theorem leavesOpen_comments (ts : List Token) :
    leavesOpen limit p (comments.read ts).2 = leavesOpen limit p ts := by
  rw [leavesOpen, line_comments, leavesOpen]

theorem leavesOpen_of_comments {ts us : List Token} {t : Token} (hus : (comments.read ts).2 = t :: us)
    (hc : t.isComment = false) (hl : t.atLineStart = false) :
    leavesOpen limit p ts = leavesOpen limit (p.after limit t) us := by
  rw [← leavesOpen_comments, hus, leavesOpen, line_cons hc hl]
  rfl

theorem leavesOpen_of_not_inRule {ts : List Token} (h : inRule ts = false) :
    leavesOpen limit p ts = p.isOpen := by
  rw [leavesOpen, (line_eq_nil h).1]
  rfl

/-- An opener that the next token does not close can be forgotten where an alternation stops. -/
theorem leavesOpen_of_stops {stack : List Kind} {isOpen : Bool} {kind opener close : Kind}
    (hb : Brackets kind opener close) {ts : List Token} (hstop : Stops ts) (hclose : isAt close ts = false) :
    leavesOpen limit ⟨opener :: stack, isOpen⟩ ts = leavesOpen limit ⟨stack, isOpen⟩ ts := by
  cases hrule : inRule ts with
  | false => rw [leavesOpen_of_not_inRule hrule, leavesOpen_of_not_inRule hrule]
  | true =>
    obtain ⟨t, us, hus, hplain, hid, hparen, hbracket, hc, hl, hat⟩ := comments_of_stops hstop hrule
    rw [hat, beq_eq_false_iff_ne] at hclose
    rw [leavesOpen_of_comments hus hc hl, leavesOpen_of_comments hus hc hl,
      Progress.after_of_not_close hplain hid hparen hbracket hb hclose]

end

/-! ### Readers and the pass -/

/-- Where an alternative starts, the comments in front of it have been taken. -/
def Settled (isOpen : Bool) (ts : List Token) : Prop := isOpen = true → Flushed ts

theorem settled_false (ts : List Token) : Settled false ts := fun h => absurd h Bool.false_ne_true

/-- A reader goes from one place of a rule to another one, with the same brackets open.  In an open place it has
taken all comments; elsewhere, what it has taken does not end with a comment. -/
structure Tracked (limit : Nat) (stack : List Kind) (isOpen : Bool) (ts leaves us : List Token)
    (isOpen' : Bool) : Prop where
  same : leavesOpen limit ⟨stack, isOpen⟩ ts = leavesOpen limit ⟨stack, isOpen'⟩ us
  settled : Settled isOpen' us
  last : isOpen' = false →
    leaves = [] ∧ isOpen = false ∨ ∃ t, leaves.getLast? = some t ∧ t.isComment = false

/-- A reader can be tracked from a place of a rule on. -/
def TrackedAt (limit : Nat) (stack : List Kind) (isOpen : Bool) (r : Reader) (ts : List Token) : Prop :=
  ∃ isOpen', Tracked limit stack isOpen ts (Tree.leavesAll (r.read ts).1) (r.read ts).2 isOpen'

section

variable {limit : Nat} {stack : List Kind} {isOpen isOpen' isOpen'' : Bool}
  {ts us vs leaves leaves' : List Token}

namespace Tracked

theorem refl (h : Settled isOpen ts) : Tracked limit stack isOpen ts [] ts isOpen :=
  ⟨rfl, h, fun hclosed => Or.inl ⟨rfl, hclosed⟩⟩

theorem trans (h : Tracked limit stack isOpen ts leaves us isOpen')
    (h' : Tracked limit stack isOpen' us leaves' vs isOpen'') :
    Tracked limit stack isOpen ts (leaves ++ leaves') vs isOpen'' := by
  refine ⟨h.same.trans h'.same, h'.settled, fun hclosed => ?_⟩
  rcases h'.last hclosed with ⟨rfl, hmiddle⟩ | ⟨t, ht, hc⟩
  · rw [List.append_nil]
    exact h.last hmiddle
  · refine Or.inr ⟨t, ?_, hc⟩
    rw [List.getLast?_append, ht]
    rfl

/-- From an open place on, a reader that comes to another place has taken a token. -/
theorem last_of_open (h : Tracked limit stack true ts leaves us isOpen) (hclosed : isOpen = false)
    (front : List Token) : ∃ t, (front ++ leaves).getLast? = some t ∧ t.isComment = false := by
  rcases h.last hclosed with ⟨-, hopen⟩ | ⟨t, ht, hc⟩
  · cases hopen
  · refine ⟨t, ?_, hc⟩
    rw [List.getLast?_append, ht]
    rfl

/-- What is read from an open place on may have other tokens before it. -/
theorem afterOpen (hsame : leavesOpen limit ⟨stack, isOpen⟩ ts = leavesOpen limit ⟨stack, true⟩ us)
    (h : Tracked limit stack true us leaves vs isOpen') (front : List Token) :
    Tracked limit stack isOpen ts (front ++ leaves) vs isOpen' :=
  ⟨hsame.trans h.same, h.settled, fun hclosed => Or.inr (h.last_of_open hclosed front)⟩

/-- A token that is not followed by an alternative. -/
theorem token {t : Token} (hus : (comments.read ts).2 = t :: us) (hc : t.isComment = false)
    (hl : t.atLineStart = false) (hafter : Progress.after limit ⟨stack, isOpen⟩ t = ⟨stack, false⟩)
    (front : List Token) : Tracked limit stack isOpen ts (front ++ [t]) us false := by
  refine ⟨?_, settled_false us, fun _ => Or.inr ⟨t, List.getLast?_concat, hc⟩⟩
  rw [leavesOpen_of_comments hus hc hl, hafter]

end Tracked

/-! ### Combinations -/

/-- Takes a plain token that is not a slash. -/
theorem trackedAt_token {kind : Kind} (hkind : isPlain kind = true) (hslash : kind ≠ .slash)
    (h : isAt kind ts = true) : TrackedAt limit stack isOpen Reader.token ts := by
  obtain ⟨t, us, hus, rfl, hl, hc⟩ := comments_of_isAt h
  have hafter : Progress.after limit ⟨stack, isOpen⟩ t = ⟨stack, false⟩ := by
    rw [Progress.after_plain hkind, beq_eq_false_iff_ne.mpr hslash]
  refine ⟨false, ?_⟩
  rw [token_read hus, Tree.leavesAll_append]
  exact .token hus hc hl hafter _

theorem trackedAt_nothing (h : Settled isOpen ts) : TrackedAt limit stack isOpen nothing ts :=
  ⟨isOpen, .refl h⟩

theorem trackedAt_choose {p : List Token → Bool} {r s : Reader}
    (hr : p ts = true → TrackedAt limit stack isOpen r ts)
    (hs : p ts = false → TrackedAt limit stack isOpen s ts) :
    TrackedAt limit stack isOpen (choose p r s) ts := by
  cases h : p ts with
  | true =>
    rw [TrackedAt, choose_pos h]
    exact hr h
  | false =>
    rw [TrackedAt, choose_neg h]
    exact hs h

theorem trackedAt_ifAt {kind : Kind} (hkind : isPlain kind = true) (hslash : kind ≠ .slash)
    (h : Settled isOpen ts) : TrackedAt limit stack isOpen (ifAt kind) ts :=
  trackedAt_choose (fun hat => trackedAt_token hkind hslash hat) fun _ => trackedAt_nothing h

theorem trackedAt_seq {r s : Reader} (hr : TrackedAt limit stack isOpen r ts)
    (hs : ∀ isOpen', Settled isOpen' (r.read ts).2 → TrackedAt limit stack isOpen' s (r.read ts).2) :
    TrackedAt limit stack isOpen (seq r s) ts := by
  obtain ⟨isOpen', hfirst⟩ := hr
  obtain ⟨isOpen'', hsecond⟩ := hs isOpen' hfirst.settled
  refine ⟨isOpen'', ?_⟩
  rw [seq_read, Tree.leavesAll_append]
  exact hfirst.trans hsecond

/-- A node for which a token is taken. -/
theorem trackedAt_node {p : List Token → Bool} {kind : Kind} {r : Reader} (hr : Consumes p (node kind r))
    (hp : p (comments.read ts).2 = true) (h : TrackedAt limit stack isOpen r (comments.read ts).2) :
    TrackedAt limit stack isOpen (node kind r) ts := by
  obtain ⟨isOpen', h⟩ := h
  refine ⟨isOpen', (leavesOpen_comments ts).symm.trans h.same, h.settled, fun hclosed => ?_⟩
  rw [node_read, Tree.leavesAll_append, Tree.leavesAll_cons, Tree.leavesAll_nil, List.append_nil,
    Tree.leaves_branch]
  rcases h.last hclosed with ⟨hnil, -⟩ | ⟨t, ht, hc⟩
  · -- a token is taken after the comments
    have hlt := hr _ hp
    have hkeeps := r.keeps (comments.read ts).2
    rw [hnil, List.nil_append] at hkeeps
    rw [node_read, comments_comments, hkeeps] at hlt
    exact absurd hlt (Nat.lt_irrefl _)
  · refine Or.inr ⟨t, ?_, hc⟩
    rw [List.getLast?_append, ht]
    rfl

/-- The parts that a loop reads, if each round may rely on what the round before it has left. -/
theorem tracked_parts {p : List Token → Bool} {r : Reader} (hr : Consumes p r) {q : List Token → Prop}
    (h : ∀ ts isOpen, q ts → p ts = true → Settled isOpen ts → TrackedAt limit stack isOpen r ts)
    (hnext : ∀ ts, q (r.read ts).2) (hq : q ts) : ∀ isOpen, Settled isOpen ts →
      ∃ isOpen', Tracked limit stack isOpen ts (Tree.leavesAll (readParts p r hr ts).1.flatten)
        (readParts p r hr ts).2 isOpen' := by
  fun_induction readParts p r hr ts with
  | case1 ts hp more ih =>
    intro isOpen hsettled
    obtain ⟨isOpen', hfirst⟩ := h ts isOpen hq hp hsettled
    obtain ⟨isOpen'', hmore⟩ := ih (hnext ts) isOpen' hfirst.settled
    refine ⟨isOpen'', ?_⟩
    rw [List.flatten_cons, Tree.leavesAll_append]
    exact hfirst.trans hmore
  | case2 ts hp => exact fun isOpen hsettled => ⟨isOpen, .refl hsettled⟩

end

/-! ### The readers of the grammar -/

/-- From an open place on, a reader can be tracked whatever brackets are open, if a number of levels is left. -/
def Followed (limit n : Nat) (ts : List Token) (trees : List Tree) (us : List Token) : Prop :=
  ∀ stack : List Kind, stack.length + n = limit →
    ∃ isOpen, Tracked limit stack true ts (Tree.leavesAll trees) us isOpen

/-- An opener with what it encloses. -/
theorem bracketed_read {kind close : Kind} {r : Thunk Reader} {ts us : List Token} {t : Token}
    (hus : (comments.read ts).2 = t :: us) (hc : t.isComment = false) :
    (bracketed kind close (some r)).read ts =
      ((comments.read ts).1 ++ [.branch kind (.leaf t ::
        ((r.get.read us).1 ++ ((ifAt close).read (r.get.read us).2).1))],
        ((ifAt close).read (r.get.read us).2).2) := by
  rw [bracketed, node_read, hus, seq_read, token_read_cons hc]
  rfl

section

variable {limit n : Nat} {stack : List Kind} {isOpen : Bool} {ts : List Token}
  {body : Option (Thunk Reader)}

theorem trackedAt_repeatCount (h : isAtRepeat ts = true) :
    TrackedAt limit stack isOpen repeatCount ts := by
  refine trackedAt_node repeatCount_consumes (by rw [isAtRepeat_comments, h]) ?_
  have hsettled : Settled isOpen (comments.read ts).2 := fun _ => comments_comments ts
  refine trackedAt_seq (trackedAt_ifAt rfl (by decide) hsettled) fun isOpen' hsettled => ?_
  refine trackedAt_choose (fun hstar => ?_) fun _ => trackedAt_nothing hsettled
  exact trackedAt_seq (trackedAt_token rfl (by decide) hstar) fun _ => trackedAt_ifAt rfl (by decide)

section

variable (hbody : Level (Followed limit) n body) (hstack : stack.length + n = limit)
include hbody hstack

theorem trackedAt_bracketed {kind opener close : Kind} (hb : Brackets kind opener close)
    (h : isAt opener ts = true) : TrackedAt limit stack isOpen (bracketed kind close body) ts := by
  obtain ⟨t, us, hus, hkind, hl, hc⟩ := comments_of_isAt h
  have hopens : leavesOpen limit ⟨stack, isOpen⟩ ts =
      leavesOpen limit (Progress.after limit ⟨stack, isOpen⟩ t) us := leavesOpen_of_comments hus hc hl
  rw [Progress.after_opener hb hkind] at hopens
  cases hbody with
  | none =>
    have hafter : Progress.after limit ⟨stack, isOpen⟩ t = ⟨stack, false⟩ := by
      rw [Progress.after_opener hb hkind, if_neg (by omega)]
    refine ⟨false, ?_⟩
    rw [bracketed, node_read, hus, token_read_cons hc, Tree.leavesAll_append]
    exact .token hus hc hl hafter _
  | @some n r hr hstop =>
    rw [if_pos (by omega)] at hopens
    obtain ⟨isOpen', hinside⟩ := hr us (opener :: stack) (by rw [List.length_cons]; omega)
    rw [TrackedAt, bracketed_read hus hc, Tree.leavesAll_append, Tree.leavesAll_cons, Tree.leavesAll_nil,
      List.append_nil, Tree.leaves_branch, Tree.leavesAll_cons, Tree.leavesAll_append, ← List.append_assoc,
      ← List.append_assoc]
    cases hat : isAt close (r.get.read us).2 with
    | true =>
      obtain ⟨u, vs, hvs, hukind, hul, huc⟩ := comments_of_isAt hat
      refine ⟨false, ?_, settled_false _, fun _ => Or.inr ⟨u, ?_, huc⟩⟩
      · rw [ifAt, choose_pos hat, token_read hvs, hopens, hinside.same, leavesOpen_of_comments hvs huc hul,
          Progress.after_close hb hukind]
      · rw [ifAt, choose_pos hat, token_read hvs, Tree.leavesAll_append, ← List.append_assoc]
        exact List.getLast?_concat
    | false =>
      -- what is enclosed stops here, and so do all brackets that the next token does not close
      rw [ifAt, choose_neg hat]
      refine ⟨isOpen', ?_, hinside.settled, fun hclosed => Or.inr ?_⟩
      · rw [hopens, hinside.same]
        exact leavesOpen_of_stops hb (hstop us) hat
      · rw [nothing, Tree.leavesAll_nil, List.append_nil]
        exact hinside.last_of_open hclosed _

theorem trackedAt_element (h : Settled isOpen ts) : TrackedAt limit stack isOpen (element body) ts := by
  refine trackedAt_choose (fun hname => ?_) fun _ => ?_
  · obtain ⟨t, us, hus, hkind, hl, hc⟩ := comments_of_isAt hname
    refine ⟨false, ?_⟩
    rw [show name.read ts = _ from single_read hus, Tree.leavesAll_append]
    exact .token hus hc hl (Progress.after_name hkind) _
  refine trackedAt_choose (trackedAt_bracketed hbody hstack .group) fun _ => ?_
  refine trackedAt_choose (trackedAt_bracketed hbody hstack .option) fun _ => ?_
  refine trackedAt_choose (fun hvalue => ?_) fun _ => trackedAt_nothing h
  simp only [isAtValue, Bool.or_eq_true] at hvalue
  rcases hvalue with (hvalue | hvalue) | hvalue <;> exact trackedAt_token rfl (by decide) hvalue

theorem trackedAt_repetition (h : Settled isOpen ts) :
    TrackedAt limit stack isOpen (repetition body) ts := by
  refine trackedAt_choose (fun hrepeat => ?_) fun _ => trackedAt_element hbody hstack h
  have hafter : isAtRepeat (comments.read ts).2 = true := by rw [isAtRepeat_comments, hrepeat]
  refine trackedAt_node ((repeatCount_consumes.seq_left _).node isAtRepeat_comments .repetition) hafter ?_
  exact trackedAt_seq (trackedAt_repeatCount hafter) fun _ => trackedAt_element hbody hstack

theorem trackedAt_concatenation (ts : List Token) : TrackedAt limit stack true (concatenation body) ts := by
  have hsettled : Settled true (comments.read ts).2 := fun _ => comments_comments ts
  obtain ⟨isOpen', hparts⟩ := tracked_parts (repetition_consumes body) (q := fun _ => True)
    (fun us isOpen _ _ => trackedAt_repetition hbody hstack) (fun _ => trivial) trivial true hsettled
  refine ⟨isOpen', ?_⟩
  rw [concatenation, seq_read, Tree.leavesAll_append, wrapped, leavesAll_wrapParts]
  exact .afterOpen (leavesOpen_comments ts).symm hparts _

/-- After a slash, an alternative starts. -/
theorem trackedAt_slash (h : isAt .slash ts = true) :
    TrackedAt limit stack isOpen (seq token (concatenation body)) ts := by
  obtain ⟨t, us, hus, hkind, hl, hc⟩ := comments_of_isAt h
  obtain ⟨isOpen', hmore⟩ := trackedAt_concatenation hbody hstack us
  refine ⟨isOpen', ?_⟩
  rw [seq_read, token_read hus, Tree.leavesAll_append]
  refine .afterOpen ?_ hmore _
  rw [leavesOpen_of_comments hus hc hl, Progress.after_plain (by rw [hkind]; rfl), hkind]
  rfl

theorem trackedAt_alternationOver (ts : List Token) :
    TrackedAt limit stack true (alternationOver body) ts := by
  obtain ⟨isOpen', hfirst⟩ := trackedAt_concatenation hbody hstack (comments.read ts).2
  obtain ⟨isOpen'', hparts⟩ := tracked_parts (slash_consumes (concatenation body))
    (q := fun _ => True) (fun us isOpen _ hslash _ => trackedAt_slash hbody hstack hslash)
    (fun _ => trivial) trivial isOpen' hfirst.settled
  refine ⟨isOpen'', ?_⟩
  rw [alternationOver, seq_read, Tree.leavesAll_append, wrappedAfter, leavesAll_wrapParts,
    List.flatten_cons, Tree.leavesAll_append]
  exact .afterOpen (leavesOpen_comments ts).symm (hfirst.trans hparts) _

end

theorem followed_alternation (limit n : Nat) (ts : List Token) :
    MeetsAt (Followed limit n) (alternation n) ts := by
  -- the readers for the levels below are known by induction on the number of levels
  induction n generalizing ts with
  | zero => exact fun stack hstack => trackedAt_alternationOver .none hstack ts
  | succ n ih =>
    have hbody : Level (Followed limit) (n + 1) (some (Thunk.mk fun _ => alternation n)) :=
      .some ih (alternation_stops n)
    exact fun stack hstack => trackedAt_alternationOver hbody hstack ts

theorem trackedAt_elements (limit : Nat) (ts : List Token) :
    TrackedAt limit [] true (elements limit) ts := by
  refine trackedAt_seq (followed_alternation limit limit ts [] (Nat.zero_add limit)) fun isOpen hsettled => ?_
  refine tracked_parts (stray_consumes _) (q := Stops) (fun us isOpen hstops hrule _ => ?_)
    (fun us => alternation_stops limit _) (alternation_stops limit ts) isOpen hsettled
  -- outside of all brackets, a token that fits nowhere is followed by another alternation
  obtain ⟨t, vs, hvs, hplain, hid, hparen, hbracket, hc, hl, -⟩ := comments_of_stops hstops hrule
  obtain ⟨isOpen', hmore⟩ := followed_alternation limit limit vs [] (Nat.zero_add limit)
  refine ⟨isOpen', ?_⟩
  rw [seq_read, node_read, hvs, token_read_cons hc, Tree.leavesAll_append]
  refine .afterOpen ?_ hmore _
  rw [leavesOpen_of_comments hvs hc hl, Progress.after_stray hplain hid hparen hbracket]
  rfl

end

/-! ### Where elements end -/

section

variable (limit : Nat) (ts : List Token)

theorem tracked_elements :
    Tracked limit [] true ts (Tree.leavesAll ((elements limit).read ts).1) ((elements limit).read ts).2
      (leavesOpen limit .start ts) := by
  obtain ⟨isOpen, h⟩ := trackedAt_elements limit ts
  have hsame := h.same
  rw [leavesOpen_of_not_inRule (elements_rest limit ts).1] at hsame
  rw [show leavesOpen limit .start ts = isOpen from hsame]
  exact h

/-- Elements that end in an open place have taken the comments after their last token. -/
theorem flushed_elements (h : leavesOpen limit .start ts = true) : Flushed ((elements limit).read ts).2 :=
  (tracked_elements limit ts).settled h

/-- Other elements do not end with a comment. -/
theorem getLast?_elements (h : leavesOpen limit .start ts = false) :
    ∃ t, (Tree.leavesAll ((elements limit).read ts).1).getLast? = some t ∧ t.isComment = false :=
  (tracked_elements limit ts).last_of_open h []

end

end Grammar

end Abnf
