/-
What holds of all that the grammar reads inside a rule.

A relation between the tokens that a reader is given, the trees that it makes of them and the tokens
that it leaves is `Grammar.Kept` if the small steps of the grammar keep it: a comment, a name, a
value, a wrapper, a pair of brackets, a stray token.  Then it holds of `alternation` and `elements`,
whatever the tokens are:

* `Kept.alternation` and `Kept.elements` are the inductions over the grammar, done once;
* `alternation_stops` says where an alternation ends: at a token that starts no part of it;
* `rule_read` takes a rule apart into its name, what follows the name, and its elements;
* `mem_ruleList` and `mem_junk` say what stands below the root and outside of rules.

The relation may depend on how many levels of brackets are left; stray tokens stand only where all
levels are.
-/
import Abnf.Syntax.Grammar

namespace Abnf

/-- Whether a token is a name in the first column. -/
def Token.isHead (t : Token) : Bool := t.kind == .identifier && t.atLineStart

theorem Token.kind_of_isHead {t : Token} (h : t.isHead = true) : t.kind = .identifier := by
  simp only [isHead, Bool.and_eq_true, beq_iff_eq] at h
  exact h.1

theorem Token.kind_of_isComment {t : Token} (h : t.isComment = true) : t.kind = .comment := by
  simpa [isComment] using h

namespace Reader

/-! ### The next token -/

theorem isComment_of_next? {ts : List Token} {t : Token} (h : next? ts = some t) :
    t.isComment = false := by
  cases hd : ts.dropWhile Token.isComment with
  | nil => simp [next?, hd] at h
  | cons u rest =>
    have hu := List.head_dropWhile_not Token.isComment (l := ts) (by simp [hd])
    have heq : u = t := by simpa [next?, hd] using h
    simpa [hd, heq] using hu

/-- Where there is no next token, there are only comments. -/
theorem comments_of_none {ts : List Token} (h : next? ts = none) : (comments.read ts).2 = [] :=
  List.head?_eq_none_iff.mp h

/-- Taking the comments off leaves the next token in front. -/
theorem comments_of_next? {ts : List Token} {t : Token} (h : next? ts = some t) :
    ∃ us, (comments.read ts).2 = t :: us := by
  cases hd : ts.dropWhile Token.isComment with
  | nil => simp [next?, hd] at h
  | cons u rest =>
    have heq : u = t := by simpa [next?, hd] using h
    exact ⟨rest, by simp [comments, hd, heq]⟩

theorem next?_of_comments {ts us : List Token} {t : Token} (h : (comments.read ts).2 = t :: us) :
    next? ts = some t := by
  rw [show next? ts = (comments.read ts).2.head? from rfl, h]
  rfl

theorem comments_cons {t : Token} (h : t.isComment = false) (us : List Token) :
    comments.read (t :: us) = ([], t :: us) := by simp [comments, h]

/-- Inside a rule, the next token is of the kind that was seen and does not start a line. -/
theorem comments_of_isAt {kind : Kind} {ts : List Token} (h : isAt kind ts = true) :
    ∃ t us, (comments.read ts).2 = t :: us ∧ t.kind = kind ∧ t.atLineStart = false ∧
      t.isComment = false := by
  cases hn : next? ts with
  | none => simp [isAt, peek?, hn] at h
  | some t =>
    obtain ⟨us, hus⟩ := comments_of_next? hn
    refine ⟨t, us, hus, ?_, ?_, isComment_of_next? hn⟩
    · cases hl : t.atLineStart <;> simp [isAt, peek?, hn, hl] at h
      exact h
    · cases hl : t.atLineStart
      · rfl
      · simp [isAt, peek?, hn, hl] at h

theorem comments_of_inRule {ts : List Token} (h : inRule ts = true) :
    ∃ t us, (comments.read ts).2 = t :: us ∧ t.atLineStart = false ∧ t.isComment = false ∧
      ∀ kind, isAt kind ts = (t.kind == kind) := by
  cases hn : next? ts with
  | none => simp [inRule, peek?, hn] at h
  | some t =>
    obtain ⟨us, hus⟩ := comments_of_next? hn
    cases hl : t.atLineStart with
    | true => simp [inRule, peek?, hn, hl] at h
    | false => exact ⟨t, us, hus, hl, isComment_of_next? hn, fun kind => by simp [isAt, peek?, hn, hl]⟩

/-- A single token is read after its comments. -/
theorem single_read {tree : Token → Tree} {h : ∀ t, (tree t).leaves = [t]} {ts us : List Token}
    {t : Token} (hc : (comments.read ts).2 = t :: us) :
    (single tree h).read ts = ((comments.read ts).1 ++ [tree t], us) := by
  simp only [comments] at hc
  simp [single, comments, hc]

theorem token_read {ts us : List Token} {t : Token} (hc : (comments.read ts).2 = t :: us) :
    token.read ts = ((comments.read ts).1 ++ [.leaf t], us) := single_read hc

/-- A token in front is read alone. -/
theorem token_read_cons {t : Token} (h : t.isComment = false) (us : List Token) :
    token.read (t :: us) = ([.leaf t], us) := by
  simp [token, single, h]

theorem seq_read (r s : Reader) (ts : List Token) :
    (seq r s).read ts = ((r.read ts).1 ++ (s.read (r.read ts).2).1, (s.read (r.read ts).2).2) := rfl

theorem choose_pos {p : List Token → Bool} {r s : Reader} {ts : List Token} (h : p ts = true) :
    (choose p r s).read ts = r.read ts := if_pos h

theorem choose_neg {p : List Token → Bool} {r s : Reader} {ts : List Token} (h : p ts = false) :
    (choose p r s).read ts = s.read ts := if_neg (by rw [h]; exact Bool.false_ne_true)

theorem node_read (kind : Kind) (r : Reader) (ts : List Token) :
    (node kind r).read ts =
      ((comments.read ts).1 ++ [.branch kind (r.read (comments.read ts).2).1],
        (r.read (comments.read ts).2).2) := rfl

/-- Where a token is taken, there is a tree for it. -/
theorem trees_ne_nil {r : Reader} {ts : List Token} (h : (r.read ts).2.length < ts.length) :
    (r.read ts).1 ≠ [] := by
  intro hnil
  have hkeeps := r.keeps ts
  rw [hnil, Tree.leavesAll_nil, List.nil_append] at hkeeps
  rw [hkeeps] at h
  exact Nat.lt_irrefl _ h

/-- Comments are taken once. -/
theorem comments_comments (ts : List Token) :
    comments.read (comments.read ts).2 = ([], (comments.read ts).2) := by
  cases hn : next? ts with
  | none => rw [comments_of_none hn]; rfl
  | some t =>
    obtain ⟨us, hus⟩ := comments_of_next? hn
    rw [hus, comments_cons (isComment_of_next? hn)]

/-- A node for which a token is taken has children. -/
theorem Consumes.children_ne_nil {p : List Token → Bool} {kind : Kind} {r : Reader}
    (h : Consumes p (Reader.node kind r)) {ts : List Token} (hp : p (comments.read ts).2 = true) :
    (r.read (comments.read ts).2).1 ≠ [] := by
  have hlt := h _ hp
  rw [node_read, comments_comments] at hlt
  exact trees_ne_nil hlt

theorem mem_comments {ts : List Token} {x : Tree} (h : x ∈ (comments.read ts).1) :
    ∃ t, x = .leaf t ∧ t.isComment = true := by
  obtain ⟨t, ht, rfl⟩ := List.mem_map.mp h
  exact ⟨t, rfl, List.all_eq_true.mp List.all_takeWhile t ht⟩

/-- A token that is read if it is of a kind comes with comments only. -/
theorem mem_ifAt {kind : Kind} {ts : List Token} {x : Tree} (h : x ∈ ((ifAt kind).read ts).1) :
    ∃ t, x = .leaf t ∧ (t.isComment = true ∨ t.kind = kind ∧ t.atLineStart = false) := by
  cases hat : isAt kind ts with
  | false =>
    rw [ifAt, choose_neg hat] at h
    exact absurd h List.not_mem_nil
  | true =>
    obtain ⟨t, us, hus, hkind, hline, -⟩ := comments_of_isAt hat
    rw [ifAt, choose_pos hat, token_read hus, List.mem_append, List.mem_singleton] at h
    rcases h with h | rfl
    · obtain ⟨c, hc, hcomment⟩ := mem_comments h
      exact ⟨c, hc, Or.inl hcomment⟩
    · exact ⟨t, rfl, Or.inr ⟨hkind, hline⟩⟩

/-! ### Loops -/

theorem readParts_pos {p : List Token → Bool} {r : Reader} {hr : Consumes p r} {ts : List Token}
    (hp : p ts = true) :
    readParts p r hr ts =
      ((r.read ts).1 :: (readParts p r hr (r.read ts).2).1, (readParts p r hr (r.read ts).2).2) := by
  rw [readParts, dif_pos hp]

theorem readParts_neg {p : List Token → Bool} {r : Reader} {hr : Consumes p r} {ts : List Token}
    (hp : p ts = false) : readParts p r hr ts = ([], ts) := by
  rw [readParts, dif_neg (by rw [hp]; exact Bool.false_ne_true)]

/-- A loop ends where its condition fails. -/
theorem readParts_stop (p : List Token → Bool) (r : Reader) (h : Consumes p r) (ts : List Token) :
    p (readParts p r h ts).2 = false := by
  fun_induction readParts p r h ts with
  | case1 ts hp more ih => exact ih
  | case2 ts hp => simpa using hp

/-- A loop takes a token in each round. -/
theorem length_readParts_le (p : List Token → Bool) (r : Reader) (h : Consumes p r) (ts : List Token) :
    (readParts p r h ts).1.length ≤ ts.length := by
  fun_induction readParts p r h ts with
  | case1 ts hp more ih => exact Nat.succ_le_of_lt (Nat.lt_of_le_of_lt ih (h ts hp))
  | case2 ts hp => exact Nat.zero_le _

/-- What holds before a loop and is kept by each round holds after it. -/
theorem readParts_post {p : List Token → Bool} {r : Reader} {h : Consumes p r}
    {q : List Token → Prop} (hr : ∀ ts, q (r.read ts).2) {ts : List Token} (hq : q ts) :
    q (readParts p r h ts).2 := by
  fun_induction readParts p r h ts with
  | case1 ts hp more ih => exact ih (hr ts)
  | case2 ts hp => exact hq

/-- What no round changes is the same after a loop. -/
theorem readParts_same {α : Type} {p : List Token → Bool} {r : Reader} {h : Consumes p r}
    (f : List Token → α) (hr : ∀ ts, p ts = true → f (r.read ts).2 = f ts) (ts : List Token) :
    f (readParts p r h ts).2 = f ts := by
  fun_induction readParts p r h ts with
  | case1 ts hp more ih => exact ih.trans (hr ts hp)
  | case2 ts hp => rfl

/-- A loop that goes round makes a tree. -/
theorem flatten_readParts_ne_nil {p : List Token → Bool} {r : Reader} {h : Consumes p r}
    {ts : List Token} (hne : (readParts p r h ts).1 ≠ []) : (readParts p r h ts).1.flatten ≠ [] := by
  cases hp : p ts with
  | false =>
    rw [readParts_neg hp] at hne
    exact absurd rfl hne
  | true =>
    rw [readParts_pos hp, List.flatten_cons]
    exact List.append_ne_nil_of_left_ne_nil (trees_ne_nil (h ts hp)) _

/-- A tree that a loop makes was made in one of its rounds. -/
theorem mem_readParts {p : List Token → Bool} {r : Reader} {h : Consumes p r} {ts : List Token}
    {x : Tree} (hx : x ∈ (readParts p r h ts).1.flatten) :
    ∃ us, p us = true ∧ x ∈ (r.read us).1 := by
  fun_induction readParts p r h ts with
  | case1 ts hp more ih =>
    rw [List.flatten_cons, List.mem_append] at hx
    rcases hx with hx | hx
    · exact ⟨ts, hp, hx⟩
    · exact ih hx
  | case2 ts hp => simp at hx

end Reader

namespace Grammar

open Reader

/-! ### Rules -/

/-- Reads what defines a rule after its name, and the comments up to its elements. -/
def afterName : Reader := seq (choose isAtDefinedAs (node .definedAs token) nothing) comments

/-- The elements of a rule as a tree, after the trees that stand before them. -/
def elementsNode (limit : Nat) (before : List Tree) (ts : List Token) : Tree :=
  .node .elements (Tree.spanOf ((elements limit).read ts).1 (Tree.spanOf before 0).stop)
    ((elements limit).read ts).1

/-- A rule is its name, what follows the name, and its elements. -/
theorem rule_read (limit : Nat) {t : Token} (h : t.isComment = false) (us : List Token) :
    (rule limit).read (t :: us) =
      ([.branch .rule (nameNode t :: ((afterName.read us).1 ++
          [elementsNode limit (nameNode t :: (afterName.read us).1) (afterName.read us).2]))],
        ((elements limit).read (afterName.read us).2).2) := by
  have hname : name.read (t :: us) = ([nameNode t], us) := by simp [name, single, h]
  have hhead : ruleHead.read (t :: us) = (nameNode t :: (afterName.read us).1, (afterName.read us).2) := by
    rw [ruleHead, seq_read, hname]
    rfl
  simp only [rule, hhead, elementsNode, List.cons_append]

theorem comments_of_isAtDefinedAs {ts : List Token} (h : isAtDefinedAs ts = true) :
    ∃ t us, (comments.read ts).2 = t :: us ∧ (t.kind = .equals ∨ t.kind = .incrementalEquals) ∧
      t.atLineStart = false ∧ t.isComment = false := by
  simp only [isAtDefinedAs, Bool.or_eq_true] at h
  rcases h with h | h
  · obtain ⟨t, us, hus, hk, hl, hc⟩ := comments_of_isAt h
    exact ⟨t, us, hus, Or.inl hk, hl, hc⟩
  · obtain ⟨t, us, hus, hk, hl, hc⟩ := comments_of_isAt h
    exact ⟨t, us, hus, Or.inr hk, hl, hc⟩

/-- What follows the name of a rule is a node for what defines it, or nothing, and comments. -/
theorem mem_afterName {ts : List Token} {x : Tree} (h : x ∈ (afterName.read ts).1) :
    (∃ t, x = .leaf t ∧ t.isComment = true) ∨
      ∃ t, x = .branch .definedAs [.leaf t] ∧ (t.kind = .equals ∨ t.kind = .incrementalEquals) ∧
        t.atLineStart = false := by
  rw [afterName, seq_read, List.mem_append] at h
  rcases h with h | h
  · cases hat : isAtDefinedAs ts with
    | false =>
      rw [choose_neg hat] at h
      exact absurd h List.not_mem_nil
    | true =>
      obtain ⟨t, us, hus, hk, hl, hc⟩ := comments_of_isAtDefinedAs hat
      rw [choose_pos hat, node_read, hus, token_read_cons hc, List.mem_append,
        List.mem_singleton] at h
      rcases h with h | rfl
      · exact Or.inl (mem_comments h)
      · exact Or.inr ⟨t, rfl, hk, hl⟩
  · exact Or.inl (mem_comments h)

/-- A token outside of rules is taken whatever it is. -/
theorem junkItem_read {ts us : List Token} {t : Token} (hus : (comments.read ts).2 = t :: us) :
    junkItem.read ts =
      ((comments.read ts).1 ++ [if t.kind = .identifier then nameNode t else .leaf t], us) := by
  have hnext := next?_of_comments hus
  by_cases hk : t.kind = .identifier
  · rw [junkItem, choose_pos (by simp [isNextName, hnext, hk]), if_pos hk]
    exact single_read hus
  · rw [junkItem, choose_neg (by simp [isNextName, hnext, hk]), if_neg hk]
    exact single_read hus

/-- A line outside of rules is an error node over its tokens, of which only the first may start a
line. -/
theorem mem_junk {t : Token} (hc : t.isComment = false) {us : List Token} {x : Tree}
    (hx : x ∈ (junk.read (t :: us)).1) :
    ∃ trees, x = .branch .error trees ∧ trees ≠ [] ∧ ∀ y ∈ trees,
      (∃ c, y = .leaf c ∧ c.isComment = true) ∨
        ∃ u, (u = t ∨ u.atLineStart = false) ∧
          y = if u.kind = .identifier then nameNode u else .leaf u := by
  have hone := comments_cons hc us
  have hnext : hasNext (t :: us) = true := by
    rw [hasNext, next?_of_comments (congrArg Prod.snd hone)]
    rfl
  have hitem : ∀ {ts vs : List Token} {u : Token} {y : Tree}, (comments.read ts).2 = u :: vs →
      (u = t ∨ u.atLineStart = false) → y ∈ (junkItem.read ts).1 →
      (∃ c, y = .leaf c ∧ c.isComment = true) ∨
        ∃ u, (u = t ∨ u.atLineStart = false) ∧
          y = if u.kind = .identifier then nameNode u else .leaf u := by
    intro ts vs u y hts hline hy
    rw [junkItem_read hts, List.mem_append, List.mem_singleton] at hy
    rcases hy with hy | hy
    · exact Or.inl (mem_comments hy)
    · exact Or.inr ⟨u, hline, hy⟩
  rw [junk, node_read, hone, List.nil_append, List.mem_singleton] at hx
  refine ⟨_, hx, trees_ne_nil (junkItem_consumes.seq_left _ _ hnext), fun y hy => ?_⟩
  rw [seq_read, List.mem_append] at hy
  rcases hy with hy | hy
  · exact hitem (congrArg Prod.snd hone) (Or.inl rfl) hy
  · -- the later tokens of the line do not start it
    obtain ⟨vs, hrule, hy⟩ := mem_readParts hy
    obtain ⟨u, ws, hws, hline, -, -⟩ := comments_of_inRule hrule
    exact hitem hws (Or.inr hline) hy

theorem isAtRule_cons {t : Token} (h : t.isComment = false) (us : List Token) :
    isAtRule (t :: us) = t.isHead := by
  rw [isAtRule, next?_of_comments (congrArg Prod.snd (comments_cons h us))]
  rfl

/-- A tree below the root is a comment, a rule or a line outside of rules. -/
theorem mem_ruleList {limit : Nat} {ts : List Token} {x : Tree}
    (hx : x ∈ ((ruleList limit).read ts).1) :
    (∃ c, x = .leaf c ∧ c.isComment = true) ∨ ∃ t us, t.isComment = false ∧
      (t.isHead = true ∧ x ∈ ((rule limit).read (t :: us)).1 ∨
        t.isHead = false ∧ x ∈ (junk.read (t :: us)).1) := by
  rw [ruleList, seq_read, List.mem_append] at hx
  rcases hx with hx | hx
  · obtain ⟨us, hus, hx⟩ := mem_readParts hx
    obtain ⟨t, hnext⟩ := Option.isSome_iff_exists.mp hus
    obtain ⟨vs, hvs⟩ := comments_of_next? hnext
    have hc := isComment_of_next? hnext
    rw [entry, seq_read, List.mem_append, hvs] at hx
    rcases hx with hx | hx
    · exact Or.inl (mem_comments hx)
    · refine Or.inr ⟨t, vs, hc, ?_⟩
      cases hhead : t.isHead with
      | true =>
        rw [choose_pos (by rw [isAtRule_cons hc, hhead])] at hx
        exact Or.inl ⟨rfl, hx⟩
      | false =>
        rw [choose_neg (by rw [isAtRule_cons hc, hhead])] at hx
        exact Or.inr ⟨rfl, hx⟩
  · exact Or.inl (mem_comments hx)

/-! ### Where alternations end -/

/-- Whether the tokens go on with something that is no part of an alternation. -/
def Stops (ts : List Token) : Prop := isAtRepetition ts = false ∧ isAt .slash ts = false

theorem concatenation_stops (body : Option (Thunk Reader)) (ts : List Token) :
    isAtRepetition ((concatenation body).read ts).2 = false :=
  readParts_stop _ _ (repetition_consumes body) _

theorem alternationOver_stops (body : Option (Thunk Reader)) (ts : List Token) :
    Stops ((alternationOver body).read ts).2 := by
  constructor
  · refine readParts_post (q := fun us => isAtRepetition us = false) ?_ ?_
    · intro us
      exact concatenation_stops body (token.read us).2
    · exact concatenation_stops body (comments.read ts).2
  · exact readParts_stop _ _ (slash_consumes _) _

/-- An alternation ends at a token that starts no part of it. -/
theorem alternation_stops (limit : Nat) (ts : List Token) :
    Stops ((alternation limit).read ts).2 := by
  cases limit with
  | zero => exact alternationOver_stops none ts
  | succ limit => exact alternationOver_stops _ ts

/-- The kinds of tokens that are leaves of their own inside a rule, next to names and brackets. -/
def isPlain : Kind → Bool
  | .charVal | .numVal | .proseVal | .number | .star | .slash => true
  | _ => false

/-- What stops an alternation and is still in the rule fits nowhere. -/
theorem comments_of_stops {ts : List Token} (hstop : Stops ts) (hrule : inRule ts = true) :
    ∃ t us, (comments.read ts).2 = t :: us ∧ isPlain t.kind = false ∧ t.kind ≠ .identifier ∧
      t.kind ≠ .leftParen ∧ t.kind ≠ .leftBracket ∧ t.isComment = false ∧ t.atLineStart = false ∧
      ∀ kind, isAt kind ts = (t.kind == kind) := by
  obtain ⟨t, us, hus, hline, hcomment, hat⟩ := comments_of_inRule hrule
  obtain ⟨hrep, hslash⟩ := hstop
  simp only [isAtRepetition, isAtRepeat, isAtElement, isAtValue, hat, Bool.or_eq_false_iff,
    beq_eq_false_iff_ne] at hrep hslash
  refine ⟨t, us, hus, ?_, hrep.2.1.1.1, hrep.2.1.1.2, hrep.2.1.2, hcomment, hline, hat⟩
  revert hrep hslash
  cases t.kind <;> simp [isPlain]

/-! ### Nodes have children -/

theorem isAtRepeat_comments (ts : List Token) : isAtRepeat (comments.read ts).2 = isAtRepeat ts := by
  simp [isAtRepeat]

/-- A repeat has a number or a star. -/
theorem repeatCount_ne_nil {ts : List Token} (h : isAtRepeat ts = true) :
    ((seq (ifAt .number) (choose (isAt .star) (seq token (ifAt .number)) nothing)).read
      (comments.read ts).2).1 ≠ [] :=
  repeatCount_consumes.children_ne_nil (by rw [isAtRepeat_comments, h])

/-- A repetition has a repeat. -/
theorem repetition_ne_nil {ts : List Token} (h : isAtRepeat ts = true)
    (body : Option (Thunk Reader)) :
    ((seq repeatCount (element body)).read (comments.read ts).2).1 ≠ [] :=
  trees_ne_nil (repeatCount_consumes.seq_left (element body) _ (by rw [isAtRepeat_comments, h]))

/-- Two or more parts of a loop have a tree. -/
theorem parts_ne_nil {p : List Token → Bool} {r : Reader} {h : Consumes p r} {ts : List Token}
    (hlong : 2 ≤ (readParts p r h ts).1.length) : (readParts p r h ts).1.flatten ≠ [] := by
  refine flatten_readParts_ne_nil fun hnil => ?_
  rw [hnil] at hlong
  exact absurd hlong (by decide)

/-- A part, with one or more parts of a loop after it, has a tree. -/
theorem cons_parts_ne_nil {p : List Token → Bool} {r : Reader} {h : Consumes p r}
    {ts : List Token} {first : List Tree}
    (hlong : 2 ≤ (first :: (readParts p r h ts).1).length) :
    (first :: (readParts p r h ts).1).flatten ≠ [] := by
  rw [List.flatten_cons]
  refine List.append_ne_nil_of_right_ne_nil _ (flatten_readParts_ne_nil fun hnil => ?_)
  rw [hnil, List.length_singleton] at hlong
  exact absurd hlong (by decide)

/-- The kinds of nodes that only put trees together. -/
def isWrapper : Kind → Bool
  | .repeatCount | .repetition | .concatenation | .alternation => true
  | _ => false

/-- The two kinds of nodes with brackets, their openers and closers. -/
inductive Brackets : Kind → Kind → Kind → Prop
  | group : Brackets .group .leftParen .rightParen
  | option : Brackets .option .leftBracket .rightBracket

/-- A relation, for each number of levels that are left, that every small step of the grammar inside
a rule keeps.  The token of a step stands in front, is no comment and starts no line. -/
structure Kept (limit : Nat) (R : Nat → List Token → List Tree → List Token → Prop) : Prop where
  refl : ∀ n ts, R n ts [] ts
  append : ∀ {n ts us vs trees trees'}, R n ts trees us → R n us trees' vs → R n ts (trees ++ trees') vs
  skip : ∀ n ts, R n ts (comments.read ts).1 (comments.read ts).2
  name : ∀ {n t us}, t.kind = .identifier → t.atLineStart = false → R n (t :: us) [nameNode t] us
  plain : ∀ {n t us}, isPlain t.kind = true → t.atLineStart = false → R n (t :: us) [.leaf t] us
  wrap : ∀ {n kind ts us trees}, isWrapper kind = true → trees ≠ [] → R n ts trees us →
    R n ts [.branch kind trees] us
  bracket : ∀ {n kind opener close t us trees vs}, Brackets kind opener close → t.kind = opener →
    t.atLineStart = false → R n us trees vs → Stops vs →
    R (n + 1) (t :: us) [.branch kind (.leaf t :: (trees ++ ((ifAt close).read vs).1))]
      ((ifAt close).read vs).2
  atLimit : ∀ {kind opener close t us}, Brackets kind opener close → t.kind = opener →
    t.atLineStart = false → R 0 (t :: us) [.branch .error [.leaf t]] us
  stray : ∀ {t us}, isPlain t.kind = false → t.kind ≠ .identifier → t.kind ≠ .leftParen →
    t.kind ≠ .leftBracket → t.isComment = false → t.atLineStart = false →
    R limit (t :: us) [.branch .error [.leaf t]] us

/-- A relation holds between a list of tokens and what a reader makes of it. -/
def MeetsAt (R : List Token → List Tree → List Token → Prop) (r : Reader) (ts : List Token) : Prop :=
  R ts (r.read ts).1 (r.read ts).2

/-- What the readers of an element may rely on about the reader for what brackets enclose. -/
inductive Level (R : Nat → List Token → List Tree → List Token → Prop) :
    Nat → Option (Thunk Reader) → Prop
  | none : Level R 0 none
  | some {n : Nat} {r : Thunk Reader} : (∀ ts, MeetsAt (R n) r.get ts) →
      (∀ ts, Stops (r.get.read ts).2) → Level R (n + 1) (some r)

namespace Kept

variable {limit n : Nat} {R : Nat → List Token → List Tree → List Token → Prop}
  (kept : Kept limit R)
include kept

/-! ### Combinations -/

theorem seq {r s : Reader} {ts : List Token} (hr : MeetsAt (R n) r ts)
    (hs : MeetsAt (R n) s (r.read ts).2) : MeetsAt (R n) (Reader.seq r s) ts :=
  kept.append hr hs

theorem nothing (ts : List Token) : MeetsAt (R n) Reader.nothing ts := kept.refl n ts

/-- A step at the front of the tokens is a step after comments. -/
theorem afterComments {ts us : List Token} {trees : List Tree}
    (h : R n (comments.read ts).2 trees us) : R n ts ((comments.read ts).1 ++ trees) us :=
  kept.append (kept.skip n ts) h

/-- A wrapper around what a reader makes. -/
theorem wrapNode {kind : Kind} (hk : isWrapper kind = true) {r : Reader} {ts : List Token}
    (hne : (r.read (comments.read ts).2).1 ≠ []) (h : MeetsAt (R n) r (comments.read ts).2) :
    MeetsAt (R n) (node kind r) ts :=
  kept.afterComments (kept.wrap hk hne h)

theorem token {kind : Kind} (hk : isPlain kind = true) {ts : List Token}
    (h : isAt kind ts = true) : MeetsAt (R n) Reader.token ts := by
  obtain ⟨t, us, hus, hkind, hline, -⟩ := comments_of_isAt h
  rw [MeetsAt, token_read hus]
  refine kept.afterComments ?_
  rw [hus]
  exact kept.plain (by rw [hkind]; exact hk) hline

theorem ifAt {kind : Kind} (hk : isPlain kind = true) (ts : List Token) :
    MeetsAt (R n) (Reader.ifAt kind) ts := by
  cases h : isAt kind ts with
  | true =>
    rw [MeetsAt, Reader.ifAt, choose_pos h]
    exact kept.token hk h
  | false =>
    rw [MeetsAt, Reader.ifAt, choose_neg h]
    exact kept.nothing ts

/-- The parts that a loop reads, one after the other, if each round may rely on what the round
before it has left. -/
theorem partsAfter {p : List Token → Bool} {r : Reader} {hr : Consumes p r}
    {q : List Token → Prop} (h : ∀ ts, q ts → p ts = true → MeetsAt (R n) r ts)
    (hnext : ∀ ts, q (r.read ts).2) {ts : List Token} (hq : q ts) :
    R n ts (readParts p r hr ts).1.flatten (readParts p r hr ts).2 := by
  fun_induction readParts p r hr ts with
  | case1 ts hp more ih => exact kept.append (h ts hq hp) (ih (hnext ts))
  | case2 ts hp => exact kept.refl n ts

theorem parts {p : List Token → Bool} {r : Reader} {hr : Consumes p r}
    (h : ∀ ts, p ts = true → MeetsAt (R n) r ts) (ts : List Token) :
    R n ts (readParts p r hr ts).1.flatten (readParts p r hr ts).2 :=
  kept.partsAfter (q := fun _ => True) (fun us _ hp => h us hp) (fun _ => trivial) trivial

/-- Parts that may be wrapped. -/
theorem wrapParts (kind : Kind) (hk : isWrapper kind = true) {parts : List (List Tree)}
    {ts us : List Token} (hne : 2 ≤ parts.length → parts.flatten ≠ []) (h : R n ts parts.flatten us) :
    R n ts (Reader.wrapParts kind parts) us := by
  unfold Reader.wrapParts
  split
  · exact kept.wrap hk (hne ‹_›) h
  · exact h

/-! ### The readers of the grammar -/

theorem repeatCount {ts : List Token} (h : isAtRepeat ts = true) :
    MeetsAt (R n) Grammar.repeatCount ts := by
  refine kept.wrapNode rfl (repeatCount_ne_nil h) (kept.seq (kept.ifAt rfl _) ?_)
  generalize ((Reader.ifAt .number).read (comments.read ts).2).2 = us
  cases h : isAt .star us with
  | true =>
    rw [MeetsAt, choose_pos h]
    exact kept.seq (kept.token rfl h) (kept.ifAt rfl _)
  | false =>
    rw [MeetsAt, choose_neg h]
    exact kept.nothing us

theorem bracketed {kind opener close : Kind} (hb : Brackets kind opener close)
    {body : Option (Thunk Reader)} (hbody : Level R n body) {ts : List Token}
    (h : isAt opener ts = true) : MeetsAt (R n) (Grammar.bracketed kind close body) ts := by
  obtain ⟨t, us, hus, hkind, hline, hcomment⟩ := comments_of_isAt h
  cases hbody with
  | none =>
    rw [MeetsAt, Grammar.bracketed, node_read, hus, token_read_cons hcomment]
    refine kept.afterComments ?_
    rw [hus]
    exact kept.atLimit hb hkind hline
  | @some n r hr hstop =>
    have hread : (Reader.seq Reader.token (Reader.seq (delayed r) (Reader.ifAt close))).read (t :: us) =
        (.leaf t :: ((r.get.read us).1 ++ ((Reader.ifAt close).read (r.get.read us).2).1),
          ((Reader.ifAt close).read (r.get.read us).2).2) := by
      simp only [Reader.seq, token_read_cons hcomment]
      rfl
    rw [MeetsAt, Grammar.bracketed, node_read, hus, hread]
    refine kept.afterComments ?_
    rw [hus]
    exact kept.bracket hb hkind hline (hr us) (hstop us)

theorem element {body : Option (Thunk Reader)} (hbody : Level R n body) (ts : List Token) :
    MeetsAt (R n) (Grammar.element body) ts := by
  unfold MeetsAt Grammar.element
  simp only [choose]
  split
  · rename_i h
    obtain ⟨t, us, hus, hkind, hline, -⟩ := comments_of_isAt h
    rw [show Grammar.name.read ts = _ from single_read hus]
    refine kept.afterComments ?_
    rw [hus]
    exact kept.name hkind hline
  · split
    · exact kept.bracketed .group hbody ‹_›
    · split
      · exact kept.bracketed .option hbody ‹_›
      · split
        · rename_i h
          simp only [isAtValue, Bool.or_eq_true] at h
          rcases h with (h | h) | h <;> exact kept.token rfl h
        · exact kept.nothing ts

theorem repetition {body : Option (Thunk Reader)} (hbody : Level R n body) (ts : List Token) :
    MeetsAt (R n) (Grammar.repetition body) ts := by
  cases h : isAtRepeat ts with
  | true =>
    have hafter : isAtRepeat (comments.read ts).2 = true := by rw [isAtRepeat_comments, h]
    rw [MeetsAt, Grammar.repetition, choose_pos h]
    refine kept.wrapNode rfl (repetition_ne_nil h body) ?_
    exact kept.seq (kept.repeatCount hafter) (kept.element hbody _)
  | false =>
    rw [MeetsAt, Grammar.repetition, choose_neg h]
    exact kept.element hbody ts

theorem concatenation {body : Option (Thunk Reader)} (hbody : Level R n body) (ts : List Token) :
    MeetsAt (R n) (Grammar.concatenation body) ts :=
  kept.afterComments <| kept.wrapParts .concatenation rfl parts_ne_nil <|
    kept.parts (fun us _ => kept.repetition hbody us) _

theorem alternationOver {body : Option (Thunk Reader)} (hbody : Level R n body) (ts : List Token) :
    MeetsAt (R n) (Grammar.alternationOver body) ts := by
  refine kept.afterComments (kept.wrapParts .alternation rfl cons_parts_ne_nil ?_)
  rw [List.flatten_cons]
  refine kept.append (kept.concatenation hbody _) (kept.parts (fun us hslash => ?_) _)
  exact kept.seq (kept.token rfl hslash) (kept.concatenation hbody _)

/-- The relation holds of every alternation. -/
theorem alternation (n : Nat) (ts : List Token) :
    MeetsAt (R n) (Grammar.alternation n) ts := by
  -- the readers for the levels below are known by induction on the limit
  induction n generalizing ts with
  | zero => exact kept.alternationOver .none ts
  | succ n ih =>
    have hbody : Level R (n + 1) (some (Thunk.mk fun _ => Grammar.alternation n)) :=
      .some ih (alternation_stops n)
    exact kept.alternationOver hbody ts

/-- The relation holds of all that follows the head of a rule. -/
theorem elements (ts : List Token) : MeetsAt (R limit) (Grammar.elements limit) ts := by
  refine kept.seq (kept.alternation limit ts) ?_
  refine kept.partsAfter (q := Stops) (fun us hstops hrule => ?_) (fun us => ?_)
    (alternation_stops limit ts)
  · refine kept.seq ?_ (kept.alternation limit _)
    obtain ⟨t, vs, hvs, hplain, hid, hparen, hbracket, hcomment, hline, -⟩ :=
      comments_of_stops hstops hrule
    rw [MeetsAt, node_read, hvs, token_read_cons hcomment]
    refine kept.afterComments ?_
    rw [hvs]
    exact kept.stray hplain hid hparen hbracket hcomment hline
  · exact alternation_stops limit _

end Kept

end Grammar

end Abnf
