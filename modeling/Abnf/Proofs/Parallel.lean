/-
Reading two lists of tokens side by side.

The grammar looks at the kinds of tokens, at which of them start a line, and at which names are those
of core rules; it looks no further than to the next token that starts a line.  So two lists of tokens
that agree in these things up to such a token are read to trees that correspond to each other.

* `Reader.Alike` relates two lists token by token, up to where each goes on in its own way;
* `Grammar.Parallel` says what a relation between tokens and one between trees must satisfy;
* `Parallel.elements`, `Parallel.rule` and `Parallel.junk` read inside of one entry: what comes after
  it does not matter;
* `Parallel.ruleList` reads a whole list, and a second list that goes on after the first one ends;
* `sites_match`: texts whose tokens correspond have trees of one shape.
-/
import Mathlib.Data.List.Forall2
import Abnf.Proofs.Lossless

namespace Abnf

namespace Reader

/-- Whether tokens are at their end, or go on with a new entry: a token other than a comment that
starts a line. -/
def Over (ts : List Token) : Prop :=
  ∀ t, ts.head? = some t → t.isComment = false ∧ t.atLineStart = true

theorem over_nil : Over [] := fun _ h => absurd h (by simp)

theorem comments_of_over {ts : List Token} (h : Over ts) : comments.read ts = ([], ts) := by
  cases ts with
  | nil => rfl
  | cons t ts => exact comments_cons (h t rfl).1 ts

/-- Inside of an entry, what is over has no next token. -/
theorem peek?_of_over {ts : List Token} (h : Over ts) : peek? ts = none := by
  cases ts with
  | nil => rfl
  | cons t ts =>
    have hnext : next? (t :: ts) = some t :=
      next?_of_comments (congrArg Prod.snd (comments_cons (h t rfl).1 ts))
    rw [peek?, hnext, Option.bind_some, (h t rfl).2]
    rfl

theorem inRule_of_isAt {kind : Kind} {ts : List Token} (h : isAt kind ts = true) :
    inRule ts = true := by
  cases hp : peek? ts <;> simp_all [inRule, isAt]

theorem comments_read_cons {t : Token} (h : t.isComment = true) (ts : List Token) :
    comments.read (t :: ts) = (.leaf t :: (comments.read ts).1, (comments.read ts).2) := by
  simp [comments, h]

/-- Two lists of tokens that correspond to each other up to `us` and `us'`. -/
inductive Alike (P : Token → Token → Prop) (us us' : List Token) :
    List Token → List Token → Prop
  | rest : Alike P us us' us us'
  | cons {t t' : Token} {ts ts' : List Token} : P t t' → Alike P us us' ts ts' →
      Alike P us us' (t :: ts) (t' :: ts')

theorem alike_of_forall₂ {P : Token → Token → Prop} {ts ts' : List Token}
    (h : List.Forall₂ P ts ts') (us us' : List Token) :
    Alike P us us' (ts ++ us) (ts' ++ us') := by
  induction h with
  | nil => exact .rest
  | cons hp _ ih => exact .cons hp ih

/-- What a reader makes of two lists: trees that correspond, and tokens that are still alike. -/
structure Agree (P : Token → Token → Prop) (T : Tree → Tree → Prop) (us us' : List Token)
    (r : Reader) (ts ts' : List Token) : Prop where
  trees : List.Forall₂ T (r.read ts).1 (r.read ts').1
  rest : Alike P us us' (r.read ts).2 (r.read ts').2

end Reader

namespace Grammar

open Reader

/-- A relation between tokens that the grammar cannot tell apart. -/
structure Blind (P : Token → Token → Prop) : Prop where
  kind : ∀ {t t'}, P t t' → t'.kind = t.kind
  line : ∀ {t t'}, P t t' → t'.atLineStart = t.atLineStart
  core : ∀ {t t'}, P t t' → t.kind = .identifier →
    CoreRule.isName (String.ofList t'.text) = CoreRule.isName (String.ofList t.text)

/-- Such a relation between tokens, and one between trees that is kept when corresponding trees become
the children of a node. -/
structure Parallel (P : Token → Token → Prop) (T : Tree → Tree → Prop) : Prop extends Blind P where
  leaf : ∀ {t t'}, P t t' → T (.leaf t) (.leaf t')
  branch : ∀ {kind ts ts'}, ts ≠ [] → List.Forall₂ T ts ts' →
    T (.branch kind ts) (.branch kind ts')
  body : ∀ {before before' ts ts'}, before ≠ [] → List.Forall₂ T before before' →
    List.Forall₂ T ts ts' →
    T (.node .elements (Tree.spanOf ts (Tree.spanOf before 0).stop) ts)
      (.node .elements (Tree.spanOf ts' (Tree.spanOf before' 0).stop) ts')

/-- What the readers of an element may rely on about the reader for what brackets enclose. -/
inductive BodyAgrees (P : Token → Token → Prop) (T : Tree → Tree → Prop) (us us' : List Token) :
    Option (Thunk Reader) → Prop
  | none : BodyAgrees P T us us' none
  | some {r : Thunk Reader} : (∀ {ts ts'}, Alike P us us' ts ts' → Agree P T us us' r.get ts ts') →
      BodyAgrees P T us us' (some r)

namespace Parallel

variable {P : Token → Token → Prop} {T : Tree → Tree → Prop} {us us' ts ts' : List Token}

/-! ### Combinations -/

theorem seq {r s : Reader} (hr : Agree P T us us' r ts ts')
    (hs : Agree P T us us' s (r.read ts).2 (r.read ts').2) :
    Agree P T us us' (Reader.seq r s) ts ts' :=
  ⟨List.rel_append hr.trees hs.trees, hs.rest⟩

theorem nothing (h : Alike P us us' ts ts') : Agree P T us us' Reader.nothing ts ts' := ⟨.nil, h⟩

theorem choose {p : List Token → Bool} {r s : Reader} (hp : p ts' = p ts)
    (hr : p ts = true → Agree P T us us' r ts ts')
    (hs : p ts = false → Agree P T us us' s ts ts') :
    Agree P T us us' (Reader.choose p r s) ts ts' := by
  cases h : p ts with
  | true =>
    obtain ⟨htrees, hrest⟩ := hr h
    constructor
    · rw [choose_pos h, choose_pos (hp.trans h)]
      exact htrees
    · rw [choose_pos h, choose_pos (hp.trans h)]
      exact hrest
  | false =>
    obtain ⟨htrees, hrest⟩ := hs h
    constructor
    · rw [choose_neg h, choose_neg (hp.trans h)]
      exact htrees
    · rw [choose_neg h, choose_neg (hp.trans h)]
      exact hrest

variable (par : Parallel P T)
include par

theorem nameNode {t t' : Token} (hp : P t t') (hkind : t.kind = .identifier) :
    T (Grammar.nameNode t) (Grammar.nameNode t') := by
  rw [Grammar.nameNode_eq, Grammar.nameNode_eq, par.core hp hkind]
  exact par.branch (List.cons_ne_nil _ _) (.cons (par.leaf hp) .nil)

theorem isComment {t t' : Token} (hp : P t t') : t'.isComment = t.isComment := by
  rw [Token.isComment, Token.isComment, par.kind hp]

theorem isHead {t t' : Token} (hp : P t t') : t'.isHead = t.isHead := by
  rw [Token.isHead, Token.isHead, par.kind hp, par.line hp]

theorem wrapParts {kind : Kind} {parts parts' : List (List Tree)}
    (hne : 2 ≤ parts.length → parts.flatten ≠ [])
    (h : List.Forall₂ (List.Forall₂ T) parts parts') :
    List.Forall₂ T (Reader.wrapParts kind parts) (Reader.wrapParts kind parts') := by
  rw [Reader.wrapParts, Reader.wrapParts, ← h.length_eq]
  split
  · exact .cons (par.branch (hne ‹_›) (List.rel_flatten h)) .nil
  · exact List.rel_flatten h

variable (hus : Over us) (hus' : Over us')
include hus hus'

/-! ### Comments and the next token -/

theorem comments (h : Alike P us us' ts ts') : Agree P T us us' Reader.comments ts ts' := by
  induction h with
  | rest =>
    constructor
    · rw [comments_of_over hus, comments_of_over hus']
      exact .nil
    · rw [comments_of_over hus, comments_of_over hus']
      exact .rest
  | @cons t t' ts ts' hp h ih =>
    have hsame := par.isComment hp
    cases hc : t.isComment with
    | true =>
      rw [hc] at hsame
      constructor
      · rw [comments_read_cons hc, comments_read_cons hsame]
        exact .cons (par.leaf hp) ih.trees
      · rw [comments_read_cons hc, comments_read_cons hsame]
        exact ih.rest
    | false =>
      rw [hc] at hsame
      constructor
      · rw [comments_cons hc, comments_cons hsame]
        exact .nil
      · rw [comments_cons hc, comments_cons hsame]
        exact .cons hp h

/-- After the comments both lists are over, or both go on with corresponding tokens. -/
theorem next (h : Alike P us us' ts ts') :
    ((Reader.comments.read ts).2 = us ∧ (Reader.comments.read ts').2 = us') ∨
      ∃ t t' vs vs', (Reader.comments.read ts).2 = t :: vs ∧
        (Reader.comments.read ts').2 = t' :: vs' ∧ P t t' ∧ t.isComment = false ∧
        Alike P us us' vs vs' := by
  induction h with
  | rest => exact Or.inl ⟨by rw [comments_of_over hus], by rw [comments_of_over hus']⟩
  | @cons t t' ts ts' hp h ih =>
    have hsame := par.isComment hp
    cases hc : t.isComment with
    | true =>
      rw [comments_read_cons hc, comments_read_cons (hsame.trans hc)]
      exact ih
    | false =>
      rw [comments_cons hc, comments_cons (hsame.trans hc)]
      exact Or.inr ⟨t, t', ts, ts', rfl, rfl, hp, hc, h⟩

/-- Inside of an entry, the two lists go on with tokens of the same kind. -/
theorem peek? (h : Alike P us us' ts ts') : Reader.peek? ts' = Reader.peek? ts := by
  rcases par.next hus hus' h with ⟨hts, hts'⟩ | ⟨t, t', vs, vs', hts, hts', hp, -, -⟩
  · rw [← peek?_comments, hts', peek?_of_over hus', ← peek?_comments, hts, peek?_of_over hus]
  · rw [Reader.peek?, next?_of_comments hts', Reader.peek?, next?_of_comments hts,
      Option.bind_some, Option.bind_some, par.line hp, par.kind hp]

theorem isAt (kind : Kind) (h : Alike P us us' ts ts') :
    Reader.isAt kind ts' = Reader.isAt kind ts := by
  rw [Reader.isAt, par.peek? hus hus' h, Reader.isAt]

theorem inRule (h : Alike P us us' ts ts') : Reader.inRule ts' = Reader.inRule ts := by
  rw [Reader.inRule, par.peek? hus hus' h, Reader.inRule]

/-- Inside of an entry, the next tokens correspond. -/
theorem next_of_inRule (h : Alike P us us' ts ts') (hrule : Reader.inRule ts = true) :
    ∃ t t' vs vs', (Reader.comments.read ts).2 = t :: vs ∧
      (Reader.comments.read ts').2 = t' :: vs' ∧ P t t' ∧ Alike P us us' vs vs' := by
  rcases par.next hus hus' h with ⟨hts, -⟩ | ⟨t, t', vs, vs', hts, hts', hp, -, hvs⟩
  · -- where the first list is over, it has no next token
    rw [Reader.inRule, ← peek?_comments, hts, peek?_of_over hus] at hrule
    exact absurd hrule (by simp)
  · exact ⟨t, t', vs, vs', hts, hts', hp, hvs⟩

theorem single {tree : Token → Tree} {hleaves : ∀ t, (tree t).leaves = [t]}
    (h : Alike P us us' ts ts') {t t' : Token} {vs vs' : List Token}
    (hts : (Reader.comments.read ts).2 = t :: vs) (hts' : (Reader.comments.read ts').2 = t' :: vs')
    (htree : T (tree t) (tree t')) (hvs : Alike P us us' vs vs') :
    Agree P T us us' (Reader.single tree hleaves) ts ts' := by
  have hcomments := (par.comments hus hus' h).trees
  constructor
  · rw [single_read hts, single_read hts']
    exact List.rel_append hcomments (.cons htree .nil)
  · rw [single_read hts, single_read hts']
    exact hvs

theorem token (h : Alike P us us' ts ts') (hrule : Reader.inRule ts = true) :
    Agree P T us us' Reader.token ts ts' := by
  obtain ⟨t, t', vs, vs', hts, hts', hp, hvs⟩ := par.next_of_inRule hus hus' h hrule
  exact par.single hus hus' h hts hts' (par.leaf hp) hvs

theorem name (h : Alike P us us' ts ts') (hat : Reader.isAt .identifier ts = true) :
    Agree P T us us' Grammar.name ts ts' := by
  have hrule := inRule_of_isAt hat
  obtain ⟨t, t', vs, vs', hts, hts', hp, hvs⟩ := par.next_of_inRule hus hus' h hrule
  obtain ⟨u, ws, hws, hkind, -, -⟩ := comments_of_isAt hat
  obtain ⟨rfl, -⟩ := List.cons.inj (hts.symm.trans hws)
  exact par.single hus hus' h hts hts' (par.nameNode hp hkind) hvs

theorem ifAt (kind : Kind) (h : Alike P us us' ts ts') :
    Agree P T us us' (Reader.ifAt kind) ts ts' :=
  choose (par.isAt hus hus' kind h)
    (fun hat => par.token hus hus' h (inRule_of_isAt hat)) fun _ => nothing h

/-- A node with children over what corresponds. -/
theorem node {k : Kind} {r : Reader} (h : Alike P us us' ts ts')
    (hne : (r.read (Reader.comments.read ts).2).1 ≠ [])
    (hr : Agree P T us us' r (Reader.comments.read ts).2 (Reader.comments.read ts').2) :
    Agree P T us us' (Reader.node k r) ts ts' :=
  seq (par.comments hus hus' h) ⟨.cons (par.branch hne hr.trees) .nil, hr.rest⟩

omit par hus hus' in
/-- The parts of a loop correspond if each round keeps the two lists alike. -/
theorem parts {p : List Token → Bool} {r : Reader} {c : Consumes p r}
    (hp : ∀ {ts ts'}, Alike P us us' ts ts' → p ts' = p ts)
    (hround : ∀ {ts ts'}, Alike P us us' ts ts' → p ts = true → Agree P T us us' r ts ts')
    (h : Alike P us us' ts ts') :
    List.Forall₂ (List.Forall₂ T) (readParts p r c ts).1 (readParts p r c ts').1 ∧
      Alike P us us' (readParts p r c ts).2 (readParts p r c ts').2 := by
  revert ts'
  fun_induction readParts p r c ts with
  | case1 ts hpos more =>
    rename_i ih
    intro ts' h
    obtain ⟨htrees, hrest⟩ := hround h hpos
    obtain ⟨hmore, hafter⟩ := ih hrest
    rw [readParts_pos ((hp h).trans hpos)]
    exact ⟨.cons htrees hmore, hafter⟩
  | case2 ts hneg =>
    intro ts' h
    have hfalse : p ts = false := by simpa using hneg
    rw [readParts_neg ((hp h).trans hfalse)]
    exact ⟨.nil, h⟩

/-! ### The readers of the grammar -/

theorem isAtRepeat (h : Alike P us us' ts ts') :
    Grammar.isAtRepeat ts' = Grammar.isAtRepeat ts := by
  rw [Grammar.isAtRepeat, par.isAt hus hus' _ h, par.isAt hus hus' _ h, Grammar.isAtRepeat]

theorem isAtValue (h : Alike P us us' ts ts') : Grammar.isAtValue ts' = Grammar.isAtValue ts := by
  rw [Grammar.isAtValue, par.isAt hus hus' _ h, par.isAt hus hus' _ h, par.isAt hus hus' _ h,
    Grammar.isAtValue]

theorem isAtRepetition (h : Alike P us us' ts ts') :
    Grammar.isAtRepetition ts' = Grammar.isAtRepetition ts := by
  rw [Grammar.isAtRepetition, Grammar.isAtElement, par.isAtRepeat hus hus' h,
    par.isAtValue hus hus' h, par.isAt hus hus' _ h, par.isAt hus hus' _ h, par.isAt hus hus' _ h,
    Grammar.isAtRepetition, Grammar.isAtElement]

theorem repeatCount (h : Alike P us us' ts ts') (hat : Grammar.isAtRepeat ts = true) :
    Agree P T us us' Grammar.repeatCount ts ts' := by
  have hafter := (par.comments hus hus' h).rest
  have hnumber := par.ifAt hus hus' .number hafter
  refine par.node hus hus' h (repeatCount_ne_nil hat) (seq hnumber ?_)
  refine choose (par.isAt hus hus' .star hnumber.rest) (fun hstar => ?_) fun _ => nothing hnumber.rest
  have htoken := par.token hus hus' hnumber.rest (inRule_of_isAt hstar)
  exact seq htoken (par.ifAt hus hus' .number htoken.rest)

theorem bracketed {kind close opener : Kind} {body : Option (Thunk Reader)}
    (hbody : BodyAgrees P T us us' body) (h : Alike P us us' ts ts')
    (hat : Reader.isAt opener ts = true) :
    Agree P T us us' (Grammar.bracketed kind close body) ts ts' := by
  have hafter := (par.comments hus hus' h).rest
  have hat' : Reader.isAt opener (Reader.comments.read ts).2 = true := by rw [isAt_comments, hat]
  have htoken := par.token hus hus' hafter (inRule_of_isAt hat')
  have hnext : hasNext (Reader.comments.read ts).2 = true := hasNext_of_isAt _ hat'
  cases hbody with
  | none => exact par.node hus hus' h (trees_ne_nil (token_consumes _ hnext)) htoken
  | @some r hr =>
    have hinner := hr htoken.rest
    have hdelayed : Agree P T us us' (delayed r) _ _ := ⟨hinner.trees, hinner.rest⟩
    refine par.node hus hus' h (trees_ne_nil (token_consumes.seq_left _ _ hnext)) ?_
    exact seq htoken (seq hdelayed (par.ifAt hus hus' close hdelayed.rest))

theorem element {body : Option (Thunk Reader)} (hbody : BodyAgrees P T us us' body)
    (h : Alike P us us' ts ts') : Agree P T us us' (Grammar.element body) ts ts' := by
  refine choose (par.isAt hus hus' _ h) (par.name hus hus' h) fun _ => ?_
  refine choose (par.isAt hus hus' _ h) (par.bracketed hus hus' hbody h) fun _ => ?_
  refine choose (par.isAt hus hus' _ h) (par.bracketed hus hus' hbody h) fun _ => ?_
  refine choose (par.isAtValue hus hus' h) (fun hat => ?_) fun _ => nothing h
  refine par.token hus hus' h ?_
  simp only [Grammar.isAtValue, Bool.or_eq_true] at hat
  rcases hat with (hat | hat) | hat <;> exact inRule_of_isAt hat

theorem repetition {body : Option (Thunk Reader)} (hbody : BodyAgrees P T us us' body)
    (h : Alike P us us' ts ts') : Agree P T us us' (Grammar.repetition body) ts ts' := by
  refine choose (par.isAtRepeat hus hus' h) (fun hat => ?_) fun _ => par.element hus hus' hbody h
  have hafter := (par.comments hus hus' h).rest
  have hcount := par.repeatCount hus hus' hafter ((isAtRepeat_comments ts).trans hat)
  refine par.node hus hus' h (repetition_ne_nil hat body) ?_
  exact seq hcount (par.element hus hus' hbody hcount.rest)

theorem concatenation {body : Option (Thunk Reader)} (hbody : BodyAgrees P T us us' body)
    (h : Alike P us us' ts ts') : Agree P T us us' (Grammar.concatenation body) ts ts' := by
  have hcomments := par.comments hus hus' h
  obtain ⟨hparts, hrest⟩ := parts (c := repetition_consumes body)
    (fun h => par.isAtRepetition hus hus' h) (fun h _ => par.repetition hus hus' hbody h)
    hcomments.rest
  exact seq hcomments ⟨par.wrapParts parts_ne_nil hparts, hrest⟩

theorem alternationOver {body : Option (Thunk Reader)} (hbody : BodyAgrees P T us us' body)
    (h : Alike P us us' ts ts') : Agree P T us us' (Grammar.alternationOver body) ts ts' := by
  have hcomments := par.comments hus hus' h
  have hfirst := par.concatenation hus hus' hbody hcomments.rest
  obtain ⟨hparts, hrest⟩ := parts (c := slash_consumes (Grammar.concatenation body))
    (fun h => par.isAt hus hus' .slash h)
    (fun h hat => by
      have htoken := par.token hus hus' h (inRule_of_isAt hat)
      exact seq htoken (par.concatenation hus hus' hbody htoken.rest))
    hfirst.rest
  exact seq hcomments ⟨par.wrapParts cons_parts_ne_nil (.cons hfirst.trees hparts), hrest⟩

theorem alternation (limit : Nat) (h : Alike P us us' ts ts') :
    Agree P T us us' (Grammar.alternation limit) ts ts' := by
  induction limit generalizing ts ts' with
  | zero => exact par.alternationOver hus hus' .none h
  | succ limit ih => exact par.alternationOver hus hus' (.some fun h => ih h) h

/-- What corresponds inside of a rule is read to trees that correspond, whatever comes after it. -/
theorem elements (limit : Nat) (h : Alike P us us' ts ts') :
    Agree P T us us' (Grammar.elements limit) ts ts' := by
  have hfirst := par.alternation hus hus' limit h
  obtain ⟨hparts, hrest⟩ := parts (c := stray_consumes (Grammar.alternation limit))
    (fun h => par.inRule hus hus' h)
    (fun {ts ts'} h hrule => by
      have hafter := (par.comments hus hus' h).rest
      have hrule' : Reader.inRule (Reader.comments.read ts).2 = true := by
        rw [Reader.inRule, peek?_comments]
        exact hrule
      have hnext := hasNext_of_inRule _ hrule'
      have hstray := par.node (k := .error) hus hus' h (trees_ne_nil (token_consumes _ hnext))
        (par.token hus hus' hafter hrule')
      exact seq hstray (par.alternation hus hus' limit hstray.rest))
    hfirst.rest
  exact seq hfirst ⟨List.rel_flatten hparts, hrest⟩

theorem afterName (h : Alike P us us' ts ts') : Agree P T us us' Grammar.afterName ts ts' := by
  have hdefined : Agree P T us us'
      (Reader.choose isAtDefinedAs (Reader.node .definedAs Reader.token) Reader.nothing) ts ts' := by
    refine choose ?_ (fun hat => ?_) fun _ => nothing h
    · rw [isAtDefinedAs, par.isAt hus hus' _ h, par.isAt hus hus' _ h, isAtDefinedAs]
    · obtain ⟨t, vs, hvs, -, hline, hc⟩ := comments_of_isAtDefinedAs hat
      have hrule : Reader.inRule (Reader.comments.read ts).2 = true := by
        rw [Reader.inRule, peek?_comments, Reader.peek?, next?_of_comments hvs, Option.bind_some,
          hline]
        rfl
      have hnext := hasNext_of_inRule _ hrule
      exact par.node hus hus' h (trees_ne_nil (token_consumes _ hnext))
        (par.token hus hus' (par.comments hus hus' h).rest hrule)
  exact seq hdefined (par.comments hus hus' hdefined.rest)

/-! ### Entries -/

theorem rule (limit : Nat) {t t' : Token} (hp : P t t') (hhead : t.isHead = true)
    (h : Alike P us us' ts ts') : Agree P T us us' (Grammar.rule limit) (t :: ts) (t' :: ts') := by
  have hkind := Token.kind_of_isHead hhead
  have hc : t.isComment = false := by simp [Token.isComment, hkind]
  have hafter := par.afterName hus hus' h
  have helements := par.elements hus hus' limit hafter.rest
  have hhead := List.Forall₂.cons (par.nameNode hp hkind) hafter.trees
  have hbody := par.body (List.cons_ne_nil _ _) hhead helements.trees
  constructor
  · rw [rule_read limit hc, rule_read limit ((par.isComment hp).trans hc)]
    refine .cons (par.branch (List.cons_ne_nil _ _) ?_) .nil
    exact List.rel_append hhead (.cons hbody .nil)
  · rw [rule_read limit hc, rule_read limit ((par.isComment hp).trans hc)]
    exact helements.rest

/-- A token outside of rules, wherever it stands. -/
theorem junkItem (h : Alike P us us' ts ts') {t t' : Token} {vs vs' : List Token}
    (hts : (Reader.comments.read ts).2 = t :: vs) (hts' : (Reader.comments.read ts').2 = t' :: vs')
    (hp : P t t') (hvs : Alike P us us' vs vs') :
    Agree P T us us' Grammar.junkItem ts ts' := by
  have hcomments := (par.comments hus hus' h).trees
  have htree : T (if t.kind = .identifier then Grammar.nameNode t else .leaf t)
      (if t'.kind = .identifier then Grammar.nameNode t' else .leaf t') := by
    rw [par.kind hp]
    split
    · exact par.nameNode hp ‹_›
    · exact par.leaf hp
  constructor
  · rw [junkItem_read hts, junkItem_read hts']
    exact List.rel_append hcomments (.cons htree .nil)
  · rw [junkItem_read hts, junkItem_read hts']
    exact hvs

theorem junk {t t' : Token} (hp : P t t') (hc : t.isComment = false)
    (h : Alike P us us' ts ts') : Agree P T us us' Grammar.junk (t :: ts) (t' :: ts') := by
  have hall : Alike P us us' (t :: ts) (t' :: ts') := .cons hp h
  have hone := congrArg Prod.snd (comments_cons hc ts)
  have hone' := congrArg Prod.snd (comments_cons ((par.isComment hp).trans hc) ts')
  have hfirst := par.junkItem hus hus' hall hone hone' hp h
  obtain ⟨hparts, hrest⟩ := parts (c := junkItem_consumes.mono hasNext_of_inRule)
    (fun h => par.inRule hus hus' h)
    (fun h hrule => by
      obtain ⟨u, u', vs, vs', hts, hts', hp, hvs⟩ := par.next_of_inRule hus hus' h hrule
      exact par.junkItem hus hus' h hts hts' hp hvs)
    hfirst.rest
  refine par.node hus hus' hall ?_ ?_
  · have hnext : hasNext (t :: ts) = true := by rw [hasNext, next?_of_comments hone]; rfl
    rw [hone]
    exact trees_ne_nil (junkItem_consumes.seq_left _ _ hnext)
  · rw [hone, hone']
    exact seq hfirst ⟨List.rel_flatten hparts, hrest⟩

/-- Entries that start with corresponding tokens correspond, whatever comes after them. -/
theorem entry (limit : Nat) (h : Alike P us us' ts ts') {t t' : Token} {vs vs' : List Token}
    (hts : (Reader.comments.read ts).2 = t :: vs) (hts' : (Reader.comments.read ts').2 = t' :: vs')
    (hp : P t t') (hc : t.isComment = false) (hvs : Alike P us us' vs vs') :
    Agree P T us us' (Grammar.entry limit) ts ts' := by
  have hc' := (par.isComment hp).trans hc
  refine seq (par.comments hus hus' h) ?_
  rw [hts, hts']
  refine choose ?_ (fun hrule => ?_) fun _ => par.junk hus hus' hp hc hvs
  · rw [isAtRule_cons hc, isAtRule_cons hc', par.isHead hp]
  · rw [isAtRule_cons hc] at hrule
    exact par.rule hus hus' limit hp hrule hvs

end Parallel

/-! ### Rule lists -/

theorem ruleList_read (limit : Nat) (ts : List Token) :
    ((ruleList limit).read ts).1 =
      (readParts hasNext (entry limit) (entry_consumes limit) ts).1.flatten ++
        (comments.read (readParts hasNext (entry limit) (entry_consumes limit) ts).2).1 := rfl

/-- Where there is an entry, it is read first. -/
theorem ruleList_of_hasNext (limit : Nat) {ts : List Token} (h : hasNext ts = true) :
    ((ruleList limit).read ts).1 =
      ((entry limit).read ts).1 ++ ((ruleList limit).read ((entry limit).read ts).2).1 := by
  rw [ruleList_read, readParts_pos h, List.flatten_cons, List.append_assoc, ruleList_read]

/-- Where there is none, only comments are read. -/
theorem ruleList_of_not_hasNext (limit : Nat) {ts : List Token} (h : hasNext ts = false) :
    ((ruleList limit).read ts).1 = (comments.read ts).1 := by
  rw [ruleList_read, readParts_neg h]
  rfl

theorem ruleList_nil (limit : Nat) : ((ruleList limit).read []).1 = [] :=
  ruleList_of_not_hasNext limit rfl

/-- The comments in front of a rule list are read first. -/
theorem ruleList_comments (limit : Nat) (ts : List Token) :
    ((ruleList limit).read ts).1 =
      (comments.read ts).1 ++ ((ruleList limit).read (comments.read ts).2).1 := by
  have hsame := hasNext_comments ts
  cases h : hasNext ts with
  | false =>
    rw [h] at hsame
    rw [ruleList_of_not_hasNext limit h, ruleList_of_not_hasNext limit hsame, comments_comments,
      List.append_nil]
  | true =>
    rw [h] at hsame
    rw [ruleList_of_hasNext limit h, ruleList_of_hasNext limit hsame, entry, seq_read, seq_read,
      comments_comments, List.nil_append, List.append_assoc]

/-- Corresponding lists are read to trees that correspond.  The second list may go on with more
entries: they are read as if they stood alone. -/
theorem Parallel.ruleList {P : Token → Token → Prop} {T : Tree → Tree → Prop}
    (par : Parallel P T) (limit : Nat) {us ts ts' : List Token} (hus : Over us)
    (h : Alike P [] us ts ts') :
    ∃ front, ((Grammar.ruleList limit).read ts').1 =
        front ++ ((Grammar.ruleList limit).read us).1 ∧
      List.Forall₂ T ((Grammar.ruleList limit).read ts).1 front := by
  -- the entries of the first list are the rounds of its loop
  revert ts'
  fun_induction readParts hasNext (Grammar.entry limit) (entry_consumes limit) ts with
  | case1 ts hnext more =>
    rename_i ih
    intro ts' h
    rcases par.next over_nil hus h with ⟨hts, -⟩ | ⟨t, t', vs, vs', hts, hts', hp, hc, hvs⟩
    · rw [← hasNext_comments, hts] at hnext
      exact absurd hnext (by decide)
    · have hnext' : hasNext ts' = true := by rw [hasNext, next?_of_comments hts']; rfl
      have hentry := par.entry over_nil hus limit h hts hts' hp hc hvs
      obtain ⟨front, hfront, htrees⟩ := ih hentry.rest
      refine ⟨((Grammar.entry limit).read ts').1 ++ front, ?_, ?_⟩
      · rw [ruleList_of_hasNext limit hnext', hfront, List.append_assoc]
      · rw [ruleList_of_hasNext limit hnext]
        exact List.rel_append hentry.trees htrees
  | case2 ts hnext =>
    intro ts' h
    have hnone : hasNext ts = false := by simpa using hnext
    rcases par.next over_nil hus h with ⟨-, hts'⟩ | ⟨t, t', vs, vs', hts, -, -, -, -⟩
    · refine ⟨(Reader.comments.read ts').1, ?_, ?_⟩
      · rw [ruleList_comments, hts']
      · rw [ruleList_of_not_hasNext limit hnone]
        exact (par.comments over_nil hus h).trees
    · rw [hasNext, next?_of_comments hts] at hnone
      exact absurd hnone (by simp)

/-- Lists that correspond from end to end are read to trees that correspond. -/
theorem Parallel.ruleList_trees {P : Token → Token → Prop} {T : Tree → Tree → Prop}
    (par : Parallel P T) (limit : Nat) {ts ts' : List Token} (h : List.Forall₂ P ts ts') :
    List.Forall₂ T ((Grammar.ruleList limit).read ts).1 ((Grammar.ruleList limit).read ts').1 := by
  have halike := alike_of_forall₂ h [] []
  rw [List.append_nil, List.append_nil] at halike
  obtain ⟨front, hfront, htrees⟩ := par.ruleList limit over_nil halike
  rw [ruleList_nil, List.append_nil] at hfront
  rwa [hfront]

/-- A change of tokens that the grammar does not see changes the trees that are read. -/
theorem Parallel.ruleList_map {f : Token → Token} {g : Tree → Tree}
    (par : Parallel (fun t t' => f t = t') fun x x' => g x = x') (limit : Nat) (ts : List Token) :
    ((Grammar.ruleList limit).read (ts.map f)).1 = ((Grammar.ruleList limit).read ts).1.map g := by
  have htokens : List.Forall₂ (fun t t' => f t = t') ts (ts.map f) := by
    rw [← List.forall₂_map_left_iff, List.forall₂_eq_eq_eq]
  have htrees := par.ruleList_trees limit htokens
  rw [← List.forall₂_map_left_iff, List.forall₂_eq_eq_eq] at htrees
  exact htrees.symm

end Grammar

/-! ### Trees of one shape -/

/-- Sites that correspond: they are equally deep, of one kind, and have corresponding tokens if they
are leaves. -/
structure Site.Matches (P : Token → Token → Prop) (s s' : Site) : Prop where
  depth : s'.ancestors.length = s.ancestors.length
  kind : s'.node.kind = s.node.kind
  token : Option.Rel P s.token? s'.token?

namespace Tree

/-- Trees that correspond: wherever they stand at one depth, their sites in pre-order correspond. -/
def Matches (P : Token → Token → Prop) (x x' : Tree) : Prop :=
  ∀ (id id' : Nat) (ancestors ancestors' : List (Nat × Tree)),
    ancestors'.length = ancestors.length →
      List.Forall₂ (Site.Matches P) (Site.preorder id ancestors x) (Site.preorder id' ancestors' x')

variable {P : Token → Token → Prop}

theorem preorderAll_match {ts ts' : List Tree} (h : List.Forall₂ (Matches P) ts ts')
    {ancestors ancestors' : List (Nat × Tree)} (hdepth : ancestors'.length = ancestors.length)
    (id id' : Nat) :
    List.Forall₂ (Site.Matches P) (Site.preorderAll id ancestors ts)
      (Site.preorderAll id' ancestors' ts') := by
  induction h generalizing id id' with
  | nil => exact .nil
  | cons hx _ ih => exact List.rel_append (hx id id' ancestors ancestors' hdepth) (ih _ _)

/-- Nodes correspond if their children do. -/
theorem matches_node (kind : Kind) (span span' : Span) {ts ts' : List Tree}
    (h : List.Forall₂ (Matches P) ts ts') : Matches P (node kind span ts) (node kind span' ts') := by
  intro id id' ancestors ancestors' hdepth
  refine .cons ⟨hdepth, rfl, .none⟩ (preorderAll_match h ?_ _ _)
  rw [List.length_cons, List.length_cons, hdepth]

end Tree

/-- A relation between tokens that the grammar cannot tell apart gives trees of one shape. -/
theorem Grammar.Blind.parallel {P : Token → Token → Prop} (blind : Blind P) :
    Parallel P (Tree.Matches P) where
  toBlind := blind
  leaf := by
    intro t t' hp id id' ancestors ancestors' hdepth
    exact .cons ⟨hdepth, blind.kind hp, .some hp⟩ .nil
  branch := by
    intro kind ts ts' _ h
    exact Tree.matches_node kind _ _ h
  body := by
    intro before before' ts ts' _ _ h
    exact Tree.matches_node .elements _ _ h

/-- Texts whose tokens correspond have trees of one shape, whose leaves correspond. -/
theorem sites_match {P : Token → Token → Prop} (blind : Grammar.Blind P) (limit : Nat)
    {source source' : Text}
    (h : List.Forall₂ P (Token.significant source) (Token.significant source')) :
    List.Forall₂ (Site.Matches P) (parse limit source).sites (parse limit source').sites := by
  have htrees := blind.parallel.ruleList_trees limit h
  exact Tree.matches_node .sourceFile _ _ htrees 0 0 [] [] rfl

/-- What is told of corresponding sites alike is told of all of them alike. -/
theorem Site.map_eq_of_match {α : Type} {P : Token → Token → Prop} {ss ss' : List Site}
    (h : List.Forall₂ (Matches P) ss ss') {f f' : Site → α}
    (hsame : ∀ s s', Matches P s s' → f' s' = f s) : ss'.map f' = ss.map f := by
  induction h with
  | nil => rfl
  | cons hs _ ih => rw [List.map_cons, List.map_cons, hsame _ _ hs, ih]

end Abnf
