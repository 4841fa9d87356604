/-
Written rules are read back.

A rule list that is written in any of the ways that RFC 5234 allows has a tree without errors, and the
tree stands for the rule list (`parse_of_written`), as long as groups and options are nested no
deeper than the limit.

The readers never see the layout: what they decide on are the words that are left.  So each reader is
given tokens whose words are those of a part of a rule, followed by others, and leaves tokens with the
others (`Reads`).  What follows an alternation or a concatenation must not go on with it.
-/
import Abnf.Proofs.ReadBack

namespace Abnf

namespace Reader

open Token

theorem words_comments (ts : List Token) : words (comments.read ts).2 = words ts := by
  rw [words, withoutComments_comments, words]

theorem words_append (ts us : List Token) : words (ts ++ us) = words ts ++ words us := by
  rw [words, withoutComments_append, List.map_append, words, words]

/-- The next word is that of the next token. -/
theorem words_of_next? {ts : List Token} {t : Token} (h : next? ts = some t) :
    ∃ us, (comments.read ts).2 = t :: us ∧ words ts = t.word :: words us := by
  obtain ⟨us, hus⟩ := comments_of_next? h
  refine ⟨us, hus, ?_⟩
  rw [← words_comments, hus, words, withoutComments_cons (isComment_of_next? h)]
  rfl

theorem next?_eq_none_of_words {ts : List Token} (h : words ts = []) : next? ts = none := by
  cases hn : next? ts with
  | none => rfl
  | some t =>
    obtain ⟨us, -, hwords⟩ := words_of_next? hn
    rw [hwords] at h
    exact absurd h (List.cons_ne_nil _ _)

theorem comments_of_words {ts : List Token} {x : Word} {w : List Word} (h : words ts = x :: w) :
    ∃ t us, (comments.read ts).2 = t :: us ∧ t.isComment = false ∧ t.word = x ∧ words us = w := by
  cases hn : next? ts with
  | none =>
    rw [← words_comments, comments_of_none hn] at h
    exact absurd h.symm (List.cons_ne_nil _ _)
  | some t =>
    obtain ⟨us, hus, hwords⟩ := words_of_next? hn
    rw [hwords, List.cons.injEq] at h
    exact ⟨t, us, hus, isComment_of_next? hn, h.1, h.2⟩

theorem peek?_of_words {ts : List Token} {kind : Kind} {text : Text} {w : List Word}
    (h : words ts = ⟨kind, text, false⟩ :: w) : peek? ts = some kind := by
  obtain ⟨t, us, hus, -, hword, -⟩ := comments_of_words h
  have hkind : t.kind = kind := congrArg Word.kind hword
  have hline : t.atLineStart = false := congrArg Word.atLineStart hword
  rw [peek?, next?_of_comments hus, Option.bind_some, hline, hkind]
  rfl

theorem isAt_of_words {ts : List Token} {k : Kind} {text : Text} {w : List Word}
    (h : words ts = ⟨k, text, false⟩ :: w) (kind : Kind) : isAt kind ts = (k == kind) := by
  rw [isAt, peek?_of_words h]
  rfl

/-- The words are at their end, or go on with a new line. -/
def LineOver (w : List Word) : Prop := ∀ x, w.head? = some x → x.atLineStart = true

theorem peek?_of_lineOver {ts : List Token} (h : LineOver (words ts)) : peek? ts = none := by
  cases hn : next? ts with
  | none => rw [peek?, hn]; rfl
  | some t =>
    obtain ⟨us, -, hwords⟩ := words_of_next? hn
    have hline : t.atLineStart = true := h t.word (by rw [hwords]; rfl)
    rw [peek?, hn, Option.bind_some, hline]
    rfl

end Reader

namespace Abstract

open Token Reader Grammar

/-! ### Readers and words -/

/-- What a reader makes of tokens: trees that stand for some views, and tokens with some words left. -/
structure Reads (r : Reader) (ts : List Token) (views : List View) (rest : List Word) : Prop where
  shows : Shows (r.read ts).1 views
  rest : words (r.read ts).2 = rest

theorem Reads.seq {r s : Reader} {ts : List Token} {vs vs' : List View} {mid rest : List Word}
    (hr : Reads r ts vs mid) (hs : Reads s (r.read ts).2 vs' rest) :
    Reads (seq r s) ts (vs ++ vs') rest :=
  ⟨hr.shows.append hs.shows, hs.rest⟩

theorem Reads.of_eq {r s : Reader} {ts : List Token} {vs : List View} {rest : List Word}
    (hs : Reads s ts vs rest) (h : r.read ts = s.read ts) : Reads r ts vs rest :=
  ⟨by rw [h]; exact hs.shows, by rw [h]; exact hs.rest⟩

/-- The words of what a reader takes are those that it does not leave. -/
theorem words_leaves {r : Reader} {ts : List Token} {taken rest : List Word}
    (h : words ts = taken ++ rest) (hrest : words (r.read ts).2 = rest) :
    words (Tree.leavesAll (r.read ts).1) = taken := by
  rw [← r.keeps ts, words_append, hrest] at h
  exact List.append_cancel_right h

theorem reads_single {tree : Token → Tree} {hleaves : ∀ t, (tree t).leaves = [t]} {ts : List Token}
    {x : Word} {w : List Word} {vs : List View} (h : words ts = x :: w)
    (htree : ∀ t : Token, t.word = x → Shows [tree t] vs) : Reads (single tree hleaves) ts vs w := by
  obtain ⟨t, us, hus, -, hword, hw⟩ := comments_of_words h
  have hread := single_read (h := hleaves) hus
  exact ⟨by rw [hread]; exact (Shows.comments ts).append (htree t hword), by rw [hread]; exact hw⟩

theorem reads_dropped {ts : List Token} {x : Word} {w : List Word} (h : words ts = x :: w)
    (hx : isDropped x.kind = true) : Reads token ts [] w :=
  reads_single h fun _ ht => .dropped (by rw [← ht] at hx; exact hx)

theorem reads_ifAt {ts : List Token} {kind : Kind} {text : Text} {w : List Word}
    (h : words ts = ⟨kind, text, false⟩ :: w) (hkind : isDropped kind = true) :
    Reads (ifAt kind) ts [] w := by
  have hat : isAt kind ts = true := by
    rw [isAt_of_words h]
    exact beq_self_eq_true kind
  exact (reads_dropped h hkind).of_eq (choose_pos hat)

/-- A node over what a reader makes of tokens with the same words. -/
theorem reads_node {kind : Kind} {r : Reader} {ts : List Token} {v : View} {rest : List Word}
    (h : ∀ us, words us = words ts → Tree.anyError (r.read us).1 = false ∧
      words (r.read us).2 = rest ∧
      View.ofNode? kind (words (Tree.leavesAll (r.read us).1)) (viewAll? (r.read us).1) = some v) :
    Reads (node kind r) ts [v] rest := by
  obtain ⟨hclean, hrest, hview⟩ := h _ (words_comments ts)
  exact ⟨(Shows.comments ts).append (Shows.branch hclean hview), hrest⟩

/-! ### Repeats -/

/-- A reader makes no errors and leaves tokens with some words. -/
def Takes (r : Reader) (ts : List Token) (rest : List Word) : Prop :=
  Tree.anyError (r.read ts).1 = false ∧ words (r.read ts).2 = rest

theorem Takes.seq {r s : Reader} {ts : List Token} {mid rest : List Word} (hr : Takes r ts mid)
    (hs : ∀ us, words us = mid → Takes s us rest) : Takes (seq r s) ts rest := by
  obtain ⟨hclean, hrest⟩ := hs _ hr.2
  refine ⟨?_, hrest⟩
  rw [seq_read, Tree.anyError_append, hr.1, hclean]
  rfl

theorem takes_token {ts : List Token} {x : Word} {w : List Word} (h : words ts = x :: w)
    (herror : x.kind ≠ .error) (hunknown : x.kind ≠ .unknown) : Takes token ts w := by
  obtain ⟨t, us, hus, -, rfl, hw⟩ := comments_of_words h
  rw [Takes, token_read hus]
  refine ⟨?_, hw⟩
  rw [Tree.anyError_append, anyError_comments, Tree.anyError_cons, Tree.hasError_leaf herror hunknown]
  rfl

/-- A number that may be left out, before something that is none. -/
theorem takes_digits (n : Option Digits) {ts : List Token} {w : List Word}
    (h : words ts = n.elim [] Digits.words ++ w)
    (hw : ∀ us, words us = w → isAt .number us = false) : Takes (ifAt .number) ts w := by
  cases n with
  | none =>
    rw [Takes, ifAt, choose_neg (hw ts h)]
    exact ⟨rfl, h⟩
  | some n =>
    rw [Takes, ifAt, choose_pos (isAt_of_words h .number)]
    exact takes_token h Kind.noConfusion Kind.noConfusion

/-- The kinds of words that an element starts with. -/
def startsElement : Kind → Bool
  | .identifier | .leftParen | .leftBracket | .charVal | .numVal | .proseVal => true
  | _ => false

theorem words_element (e : Element) :
    ∃ kind text w, e.words = ⟨kind, text, false⟩ :: w ∧ startsElement kind = true := by
  cases e with
  | name n => exact ⟨_, _, _, rfl, rfl⟩
  | value v => exact ⟨_, _, _, rfl, by cases v <;> rfl⟩
  | group a => exact ⟨_, _, _, rfl, rfl⟩
  | option a => exact ⟨_, _, _, rfl, rfl⟩

/-- Tokens that go on with an element do not go on with anything else. -/
theorem isAt_of_startsElement (e : Element) {ts : List Token} {w : List Word}
    (h : words ts = e.words ++ w) {kind : Kind} (hkind : startsElement kind = false) :
    isAt kind ts = false := by
  obtain ⟨k, text, u, hu, hk⟩ := words_element e
  rw [hu, List.cons_append] at h
  rw [isAt_of_words h, beq_eq_false_iff_ne]
  rintro rfl
  rw [hk] at hkind
  exact absurd hkind (by decide)

theorem reads_repeatCount (r : Repeat) (e : Element) {ts : List Token} {w : List Word}
    (h : words ts = r.words ++ (e.words ++ w)) :
    Reads repeatCount ts [.count r] (e.words ++ w) := by
  have hstop : ∀ {kind : Kind}, startsElement kind = false → ∀ us, words us = e.words ++ w →
      isAt kind us = false := fun hk us hus => isAt_of_startsElement e hus hk
  refine reads_node fun us hus => ?_
  rw [h] at hus
  have htakes : Takes (seq (ifAt .number) (choose (isAt .star) (seq token (ifAt .number)) nothing))
      us (e.words ++ w) := by
    cases r with
    | exactly count =>
      refine Takes.seq (takes_digits (some count) hus (hstop rfl)) fun vs hvs => ?_
      rw [Takes, choose_neg (hstop rfl vs hvs)]
      exact ⟨rfl, hvs⟩
    | between low high =>
      rw [Repeat.words, List.append_assoc, List.cons_append] at hus
      refine Takes.seq (takes_digits low hus fun vs hvs => isAt_of_words hvs _) fun vs hvs => ?_
      rw [Takes, choose_pos (isAt_of_words hvs .star)]
      exact Takes.seq (takes_token hvs (by decide) (by decide)) fun _ h' =>
        takes_digits high h' (hstop rfl)
  refine ⟨htakes.1, htakes.2, ?_⟩
  -- comments may stand between the words of a repeat, so it is read off the words
  rw [words_leaves hus htakes.2, View.ofNode?, Repeat.ofWords?_words]
  rfl

/-! ### Elements -/

/-- The reader for what brackets enclose, with some levels left. -/
def bodyAt : Nat → Option (Thunk Reader)
  | 0 => none
  | n + 1 => some (Thunk.mk fun _ => alternation n)

theorem alternation_eq (n : Nat) : alternation n = alternationOver (bodyAt n) := by
  cases n <;> rfl

/-- Words after which an alternation does not go on. -/
def Ends (w : List Word) : Prop := ∀ us, words us = w → Stops us

theorem ends_closer {close : Kind} {text : Text} {w : List Word}
    (h : close = .rightParen ∨ close = .rightBracket) : Ends (⟨close, text, false⟩ :: w) := by
  intro us hus
  rcases h with rfl | rfl <;>
    simp [Stops, isAtRepetition, isAtRepeat, isAtElement, isAtValue, isAt_of_words hus]

/-- Brackets with an alternation between them. -/
theorem reads_bracketed {kind opener close : Kind} (hb : Brackets kind opener close) {n : Nat}
    {a : Alternation} {e : Element} (he : ∀ v : View, v.alternation? = some a →
      ∀ ws, View.ofNode? kind ws (some [v]) = some (.element e))
    {open' close' : Text} {ts : List Token} {w : List Word}
    (h : words ts = ⟨opener, open', false⟩ :: (a.words ++ ⟨close, close', false⟩ :: w))
    (hbody : ∀ us, words us = a.words ++ ⟨close, close', false⟩ :: w →
      ∃ v, Reads (alternation n) us [v] (⟨close, close', false⟩ :: w) ∧ v.alternation? = some a) :
    Reads (bracketed kind close (bodyAt (n + 1))) ts [.element e] w := by
  have hdropped : isDropped opener = true ∧ isDropped close = true := by cases hb <;> decide
  refine reads_node fun us hus => ?_
  rw [h] at hus
  have hopen := reads_dropped hus hdropped.1
  obtain ⟨v, hv, hva⟩ := hbody _ hopen.rest
  have hclose := reads_ifAt hv.rest hdropped.2
  have hdelayed : Reads (delayed (Thunk.mk fun _ => alternation n)) (token.read us).2 [v] _ :=
    ⟨hv.shows, hv.rest⟩
  have hall := hopen.seq (hdelayed.seq hclose)
  refine ⟨hall.shows.clean, hall.rest, ?_⟩
  rw [hall.shows.views]
  exact he v hva _

/-! ### Parts -/

/-- Parts, one for each item of a list, that stand for its items. -/
def PartsShow {α : Type} (f : View → Option α) (items : List α) (parts : List (List Tree)) : Prop :=
  ∃ vs, Shows parts.flatten vs ∧ vs.map f = items.map some ∧ parts.length = items.length

theorem mapM_of_map {α : Type} {f : View → Option α} {vs : List View} {items : List α}
    (h : vs.map f = items.map some) : vs.mapM f = some items := by
  induction vs generalizing items with
  | nil =>
    rw [List.map_nil, List.nil_eq, List.map_eq_nil_iff] at h
    rw [h]
    rfl
  | cons v vs ih =>
    cases items with
    | nil => exact absurd h (List.cons_ne_nil _ _)
    | cons x items =>
      rw [List.map_cons, List.map_cons, List.cons.injEq] at h
      rw [List.mapM_cons, h.1, ih h.2]
      rfl

theorem PartsShow.one {α : Type} {f : View → Option α} {x : α} {part : List Tree} {v : View}
    (h : Shows part [v]) (hv : f v = some x) : PartsShow f [x] [part] := by
  refine ⟨[v], ?_, ?_, rfl⟩
  · rw [List.flatten_cons, List.flatten_nil, List.append_nil]
    exact h
  · rw [List.map_singleton, hv]
    rfl

theorem PartsShow.cons {α : Type} {f : View → Option α} {x : α} {items : List α}
    {part : List Tree} {parts : List (List Tree)} {v : View} (h : Shows part [v])
    (hv : f v = some x) (hparts : PartsShow f items parts) :
    PartsShow f (x :: items) (part :: parts) := by
  obtain ⟨vs, hvs, hitems, hlength⟩ := hparts
  refine ⟨v :: vs, h.append hvs, ?_, by rw [List.length_cons, hlength, List.length_cons]⟩
  rw [List.map_cons, hv, hitems]
  rfl

/-- Trees without a view may stand before the first part. -/
theorem PartsShow.skip {α : Type} {f : View → Option α} {items : List α} {before part : List Tree}
    {parts : List (List Tree)} (h : Shows before []) (hparts : PartsShow f items (part :: parts)) :
    PartsShow f items ((before ++ part) :: parts) := by
  obtain ⟨vs, hvs, hitems, hlength⟩ := hparts
  refine ⟨vs, ?_, hitems, hlength⟩
  rw [List.flatten_cons, List.append_assoc]
  exact h.append hvs

/-- One part stands for itself. -/
theorem PartsShow.wrap_one {α : Type} {f : View → Option α} {x : α} {parts : List (List Tree)}
    (h : PartsShow f [x] parts) (kind : Kind) : ∃ v, Shows (wrapParts kind parts) [v] ∧ f v = some x := by
  obtain ⟨vs, hvs, hitems, hlength⟩ := h
  obtain ⟨v, rfl, hv⟩ := List.map_eq_singleton_iff.mp hitems
  rw [wrapParts, if_neg (by rw [hlength]; exact Nat.not_succ_le_self 1)]
  exact ⟨v, hvs, hv⟩

/-- Two or more parts stand for what a node over them does. -/
theorem PartsShow.wrap_more {α : Type} {f : View → Option α} {items : List α}
    {parts : List (List Tree)} {kind : Kind} {v : View} (h : PartsShow f items parts)
    (hlong : 2 ≤ items.length)
    (hnode : ∀ ws vs, vs.mapM f = some items → View.ofNode? kind ws (some vs) = some v) :
    Shows (wrapParts kind parts) [v] := by
  obtain ⟨vs, hvs, hitems, hlength⟩ := h
  rw [wrapParts, if_pos (by rw [hlength]; exact hlong)]
  refine Shows.branch hvs.clean ?_
  rw [hvs.views]
  exact hnode _ vs (mapM_of_map hitems)

/-! ### Concatenations and alternations -/

/-- The repetitions that a concatenation is made of. -/
def repetitionParts (n : Nat) (ts : List Token) : List (List Tree) × List Token :=
  readParts isAtRepetition (repetition (bodyAt n)) (repetition_consumes _) ts

/-- The concatenations that an alternation is made of, each after the first one with its slash. -/
def concatenationParts (n : Nat) (ts : List Token) : List (List Tree) × List Token :=
  let first := (concatenation (bodyAt n)).read ts
  let more := readParts (isAt .slash) (seq token (concatenation (bodyAt n))) (slash_consumes _) first.2
  (first.1 :: more.1, more.2)

theorem Concatenation.repetitions_length_pos (c : Concatenation) : 0 < c.repetitions.length := by
  cases c <;> exact Nat.succ_pos _

theorem Alternation.concatenations_length_pos (a : Alternation) : 0 < a.concatenations.length := by
  cases a <;> exact Nat.succ_pos _

theorem reads_concatenation {c : Concatenation} {n : Nat} {ts : List Token} {w : List Word}
    (h : ∀ us, words us = words ts →
      PartsShow View.repetition? c.repetitions (repetitionParts n us).1 ∧
        words (repetitionParts n us).2 = w) :
    ∃ v, Reads (concatenation (bodyAt n)) ts [v] w ∧ v.concatenation? = some c := by
  obtain ⟨hparts, hrest⟩ := h _ (words_comments ts)
  have hwrap : ∃ v, Shows (wrapParts .concatenation (repetitionParts n (comments.read ts).2).1) [v] ∧
      v.concatenation? = some c := by
    cases c with
    | one r =>
      obtain ⟨v, hv, hr⟩ := hparts.wrap_one .concatenation
      exact ⟨v, hv, View.concatenation?_of_repetition? hr⟩
    | cons r c =>
      refine ⟨.concatenation (.cons r c), ?_, rfl⟩
      refine hparts.wrap_more (Nat.succ_le_succ c.repetitions_length_pos) fun ws vs hvs => ?_
      rw [View.ofNode?, hvs, Option.bind_some, Concatenation.ofList?_repetitions]
      rfl
  obtain ⟨v, hv, hc⟩ := hwrap
  exact ⟨v, ⟨(Shows.comments ts).append hv, hrest⟩, hc⟩

theorem reads_alternation {a : Alternation} {n : Nat} {ts : List Token} {w : List Word}
    (h : ∀ us, words us = words ts →
      PartsShow View.concatenation? a.concatenations (concatenationParts n us).1 ∧
        words (concatenationParts n us).2 = w) :
    ∃ v, Reads (alternation n) ts [v] w ∧ v.alternation? = some a := by
  obtain ⟨hparts, hrest⟩ := h _ (words_comments ts)
  have hwrap : ∃ v, Shows (wrapParts .alternation (concatenationParts n (comments.read ts).2).1) [v] ∧
      v.alternation? = some a := by
    cases a with
    | one c =>
      obtain ⟨v, hv, hc⟩ := hparts.wrap_one .alternation
      exact ⟨v, hv, View.alternation?_of_concatenation? hc⟩
    | cons c a =>
      refine ⟨.alternation (.cons c a), ?_, rfl⟩
      refine hparts.wrap_more (Nat.succ_le_succ a.concatenations_length_pos) fun ws vs hvs => ?_
      rw [View.ofNode?, hvs, Option.bind_some, Alternation.ofList?_concatenations]
      rfl
  obtain ⟨v, hv, ha⟩ := hwrap
  rw [alternation_eq]
  exact ⟨v, ⟨(Shows.comments ts).append hv, hrest⟩, ha⟩

theorem words_repeat (r : Repeat) :
    ∃ kind text w, r.words = ⟨kind, text, false⟩ :: w ∧ (kind = .number ∨ kind = .star) := by
  cases r with
  | exactly count => exact ⟨_, _, _, rfl, Or.inl rfl⟩
  | between low high =>
    cases low with
    | none => exact ⟨_, _, _, rfl, Or.inr rfl⟩
    | some low => exact ⟨_, _, _, rfl, Or.inl rfl⟩

theorem isAtRepeat_of_words (r : Repeat) {ts : List Token} {w : List Word}
    (h : words ts = r.words ++ w) : isAtRepeat ts = true := by
  obtain ⟨kind, text, u, hu, hkind⟩ := words_repeat r
  rw [hu, List.cons_append] at h
  rw [isAtRepeat, isAt_of_words h, isAt_of_words h]
  rcases hkind with rfl | rfl <;> rfl

/-- A repetition goes on where one is expected. -/
theorem isAtRepetition_of_words (r : Repetition) {ts : List Token} {w : List Word}
    (h : words ts = r.words ++ w) : isAtRepetition ts = true := by
  obtain ⟨count, e⟩ := r
  cases count with
  | some count =>
    rw [Repetition.words, Option.elim_some, List.append_assoc] at h
    rw [isAtRepetition, isAtRepeat_of_words count h]
    rfl
  | none =>
    obtain ⟨kind, text, u, hu, hkind⟩ := words_element e
    rw [Repetition.words, Option.elim_none, List.nil_append, hu, List.cons_append] at h
    simp only [isAtRepetition, isAtElement, isAtValue, isAt_of_words h]
    revert hkind
    cases kind <;> simp [startsElement]

theorem reads_name (n : Name) (body : Option (Thunk Reader)) {ts : List Token} {w : List Word}
    (h : words ts = (Element.name n).words ++ w) :
    Reads (element body) ts [.element (.name n)] w := by
  have hname : Reads name ts [.element (.name n)] w := by
    refine reads_single h fun t ht => ?_
    rw [word, Word.mk.injEq] at ht
    exact Shows.name ht.1 ht.2.1
  exact hname.of_eq (choose_pos (isAt_of_words h .identifier))

theorem reads_value (v : Value) (body : Option (Thunk Reader)) {ts : List Token} {w : List Word}
    (h : words ts = (Element.value v).words ++ w) :
    Reads (element body) ts [.element (.value v)] w := by
  have htoken : Reads token ts [.element (.value v)] w := by
    refine reads_single h fun t ht => ?_
    rw [word, Word.mk.injEq] at ht
    exact Shows.value ht.1 ht.2.1
  refine htoken.of_eq ?_
  have hat : ∀ kind, isAt kind ts = (v.kind == kind) := isAt_of_words h
  have hvalue : isAtValue ts = true := by
    rw [isAtValue, hat, hat, hat]
    cases v <;> rfl
  rw [element, choose_neg (by rw [hat]; cases v <;> rfl), choose_neg (by rw [hat]; cases v <;> rfl),
    choose_neg (by rw [hat]; cases v <;> rfl), choose_pos hvalue]

/-! The induction is on the syntax of a rule.  `w` are the words that follow; a loop ends in front of
them, so there they must not look like another part. -/

mutual

theorem reads_element : ∀ (e : Element) {n : Nat} {ts : List Token} {w : List Word}, e.depth ≤ n →
    words ts = e.words ++ w → Reads (element (bodyAt n)) ts [.element e] w
  | .name x, _, _, _, _, h => reads_name x _ h
  | .value v, _, _, _, _, h => reads_value v _ h
  | .group a, n + 1, ts, w, hdepth, h => by
    rw [Element.words, List.cons_append, List.append_assoc] at h
    have hgroup := reads_bracketed (n := n) .group (e := .group a)
      (fun v hv ws => by rw [View.ofNode?, hv]; rfl) h
      (fun us hus => reads_alternation fun vs hvs =>
        reads_concatenations a (Nat.le_of_succ_le_succ hdepth) (hvs.trans hus)
          (ends_closer (Or.inl rfl)))
    refine hgroup.of_eq ?_
    rw [element, choose_neg (isAt_of_words h .identifier), choose_pos (isAt_of_words h .leftParen)]
  | .option a, n + 1, ts, w, hdepth, h => by
    rw [Element.words, List.cons_append, List.append_assoc] at h
    have hoption := reads_bracketed (n := n) .option (e := .option a)
      (fun v hv ws => by rw [View.ofNode?, hv]; rfl) h
      (fun us hus => reads_alternation fun vs hvs =>
        reads_concatenations a (Nat.le_of_succ_le_succ hdepth) (hvs.trans hus)
          (ends_closer (Or.inr rfl)))
    refine hoption.of_eq ?_
    rw [element, choose_neg (isAt_of_words h .identifier), choose_neg (isAt_of_words h .leftParen),
      choose_pos (isAt_of_words h .leftBracket)]

theorem reads_repetition : ∀ (r : Repetition) {n : Nat} {ts : List Token} {w : List Word},
    r.depth ≤ n → words ts = r.words ++ w →
      ∃ v, Reads (repetition (bodyAt n)) ts [v] w ∧ v.repetition? = some r
  | .mk none e, n, ts, w, hdepth, h => by
    have hnot : isAtRepeat ts = false := by
      rw [isAtRepeat, isAt_of_startsElement e h rfl, isAt_of_startsElement e h rfl]
      rfl
    exact ⟨_, (reads_element e hdepth h).of_eq (choose_neg hnot), rfl⟩
  | .mk (some count) e, n, ts, w, hdepth, h => by
    rw [Repetition.words, Option.elim_some, List.append_assoc] at h
    have hnode : Reads (node .repetition (seq repeatCount (element (bodyAt n)))) ts
        [.repetition (.mk (some count) e)] w := by
      refine reads_node fun us hus => ?_
      have hcount := reads_repeatCount count e (hus.trans h)
      have hall := hcount.seq (reads_element e hdepth hcount.rest)
      exact ⟨hall.shows.clean, hall.rest, by rw [hall.shows.views]; rfl⟩
    exact ⟨_, hnode.of_eq (choose_pos (isAtRepeat_of_words count h)), rfl⟩

theorem reads_repetitions : ∀ (c : Concatenation) {n : Nat} {ts : List Token} {w : List Word},
    c.depth ≤ n → words ts = c.words ++ w → (∀ us, words us = w → isAtRepetition us = false) →
      PartsShow View.repetition? c.repetitions (repetitionParts n ts).1 ∧
        words (repetitionParts n ts).2 = w
  | .one r, n, ts, w, hdepth, h, hend => by
    obtain ⟨v, hv, hr⟩ := reads_repetition r hdepth h
    rw [repetitionParts, readParts_pos (isAtRepetition_of_words r h),
      readParts_neg (hend _ hv.rest)]
    exact ⟨.one hv.shows hr, hv.rest⟩
  | .cons r c, n, ts, w, hdepth, h, hend => by
    rw [Concatenation.words, List.append_assoc] at h
    rw [Concatenation.depth, Nat.max_le] at hdepth
    obtain ⟨v, hv, hr⟩ := reads_repetition r hdepth.1 h
    obtain ⟨hparts, hrest⟩ := reads_repetitions c hdepth.2 hv.rest hend
    rw [repetitionParts, readParts_pos (isAtRepetition_of_words r h)]
    exact ⟨.cons hv.shows hr hparts, hrest⟩

theorem reads_concatenations : ∀ (a : Alternation) {n : Nat} {ts : List Token} {w : List Word},
    a.depth ≤ n → words ts = a.words ++ w → Ends w →
      PartsShow View.concatenation? a.concatenations (concatenationParts n ts).1 ∧
        words (concatenationParts n ts).2 = w
  | .one c, n, ts, w, hdepth, h, hend => by
    obtain ⟨v, hv, hc⟩ := reads_concatenation fun us hus =>
      reads_repetitions c hdepth (hus.trans h) fun vs hvs => (hend vs hvs).1
    rw [concatenationParts, readParts_neg (hend _ hv.rest).2]
    exact ⟨.one hv.shows hc, hv.rest⟩
  | .cons c a, n, ts, w, hdepth, h, hend => by
    rw [Alternation.words, List.append_assoc, List.cons_append] at h
    rw [Alternation.depth, Nat.max_le] at hdepth
    -- a slash ends the first concatenation, and the parts after it are those of the rest
    have hslash : ∀ us, words us = ⟨.slash, ['/'], false⟩ :: (a.words ++ w) →
        isAtRepetition us = false := by
      intro us hus
      simp [isAtRepetition, isAtRepeat, isAtElement, isAtValue, isAt_of_words hus]
    obtain ⟨v, hv, hc⟩ := reads_concatenation fun us hus =>
      reads_repetitions c hdepth.1 (hus.trans h) hslash
    have htoken := reads_dropped hv.rest rfl
    obtain ⟨hparts, hrest⟩ := reads_concatenations a hdepth.2 htoken.rest hend
    rw [concatenationParts, readParts_pos (isAt_of_words hv.rest .slash)]
    exact ⟨.cons hv.shows hc (hparts.skip htoken.shows), hrest⟩

end

/-! ### Rules -/

theorem ends_lineOver {w : List Word} (h : LineOver w) : Ends w := by
  rintro us rfl
  simp [Stops, isAtRepetition, isAtRepeat, isAtElement, isAtValue, isAt, peek?_of_lineOver h]

theorem reads_elements {a : Alternation} {limit : Nat} {ts : List Token} {w : List Word}
    (hdepth : a.depth ≤ limit) (h : words ts = a.words ++ w) (hw : LineOver w) :
    ∃ v, Reads (elements limit) ts [v] w ∧ v.alternation? = some a := by
  obtain ⟨v, hv, ha⟩ := reads_alternation fun us hus =>
    reads_concatenations a hdepth (hus.trans h) (ends_lineOver hw)
  have hstop : inRule ((alternation limit).read ts).2 = false := by
    rw [inRule, peek?_of_lineOver (by rw [hv.rest]; exact hw)]
    rfl
  -- the next word starts a line, so no token of the rule is left to be stray
  have hstray : Reads (many inRule (seq (node .error token) (alternation limit)) (stray_consumes _))
      ((alternation limit).read ts).2 [] w := by
    have hread : readParts inRule (seq (node .error token) (alternation limit)) (stray_consumes _)
        ((alternation limit).read ts).2 = ([], ((alternation limit).read ts).2) := readParts_neg hstop
    refine ⟨?_, ?_⟩
    · show Shows (readParts _ _ _ _).1.flatten []
      rw [hread]
      exact .nil
    · show words (readParts _ _ _ _).2 = w
      rw [hread]
      exact hv.rest
  exact ⟨v, hv.seq hstray, ha⟩

theorem filter_comments (ts : List Token) :
    (comments.read ts).1.filter (·.kind != .comment) = [] := by
  rw [List.filter_eq_nil_iff]
  intro x hx
  obtain ⟨t, rfl, ht⟩ := mem_comments hx
  simpa [isComment, Tree.kind] using ht

/-- The sign of a rule, between comments. -/
theorem afterName_of_words (r : Rule) {ts : List Token} {w : List Word}
    (h : words ts =
      ⟨if r.incremental then .incrementalEquals else .equals, r.sign, false⟩ :: w) :
    (∃ d : Token, (afterName.read ts).1.filter (·.kind != .comment) = [.branch .definedAs [.leaf d]] ∧
      isIncremental? (words [d]) = some r.incremental) ∧ words (afterName.read ts).2 = w := by
  obtain ⟨d, us, hus, hc, hword, hw⟩ := comments_of_words h
  have hat : isAtDefinedAs ts = true := by
    rw [isAtDefinedAs, isAt_of_words h, isAt_of_words h]
    cases r.incremental <;> rfl
  have hread : afterName.read ts =
      ((comments.read ts).1 ++ [.branch .definedAs [.leaf d]] ++ (comments.read us).1,
        (comments.read us).2) := by
    rw [afterName, seq_read, choose_pos hat, node_read, hus, token_read_cons hc]
  rw [hread]
  refine ⟨⟨d, ?_, ?_⟩, (words_comments us).trans hw⟩
  · rw [List.filter_append, List.filter_append, filter_comments, filter_comments]
    rfl
  · rw [words, withoutComments_cons hc, List.map_cons, hword]
    cases r.incremental <;> rfl

/-- A rule in front of the tokens, with its name taken off. -/
theorem ofTree?_rule {r : Rule} {limit : Nat} {t : Token} {us : List Token} {w : List Word}
    (hc : t.isComment = false) (ht : t.word = ⟨.identifier, r.name.text, true⟩)
    (h : words us =
      ⟨if r.incremental then .incrementalEquals else .equals, r.sign, false⟩ :: (r.body.words ++ w))
    (hw : LineOver w) (hdepth : r.body.depth ≤ limit) :
    ∃ tree, ((rule limit).read (t :: us)).1 = [tree] ∧ tree.kind = .rule ∧
      Rule.ofTree? tree = some r ∧ tree.hasError = false ∧
      words ((rule limit).read (t :: us)).2 = w := by
  rw [word, Word.mk.injEq] at ht
  obtain ⟨⟨d, hsign, hincremental⟩, hrest⟩ := afterName_of_words r h
  obtain ⟨v, hv, hbody⟩ := reads_elements hdepth hrest hw
  refine ⟨_, congrArg Prod.fst (rule_read limit hc us), rfl, ?_, ?_, ?_⟩
  · have hkind : ((nameNode t).kind != .comment) = true := by
      unfold nameNode
      split <;> rfl
    have hchildren : ∀ before : List Tree,
        (nameNode t :: ((afterName.read us).1 ++
          [elementsNode limit before (afterName.read us).2])).filter (·.kind != .comment) =
          [nameNode t, .branch .definedAs [.leaf d], elementsNode limit before (afterName.read us).2] := by
      intro before
      rw [List.filter_cons_of_pos (by exact hkind), List.filter_append, hsign]
      rfl
    refine Rule.ofTree?_node (hchildren _) (view?_nameNode ht.1 ht.2.1) hincremental ?_
    rw [alternationOf?, hv.shows.views]
    exact hbody
  · rw [Tree.hasError_branch (by decide) (by decide), Tree.anyError_cons,
      Tree.hasError_nameNode ht.1, Tree.anyError_append, anyError_afterName]
    simpa [elementsNode, Tree.hasError] using hv.shows.clean
  · rw [rule_read limit hc us]
    exact hv.rest

/-- An entry for a rule, after the comments before it. -/
theorem ofTree?_entry {r : Rule} {limit : Nat} {ts : List Token} {w : List Word}
    (h : words ts = r.words ++ w) (hw : LineOver w) (hdepth : r.body.depth ≤ limit) :
    (∃ tree, ((entry limit).read ts).1.filter (·.kind != .comment) = [tree] ∧
      Rule.ofTree? tree = some r) ∧
      Tree.anyError ((entry limit).read ts).1 = false ∧ words ((entry limit).read ts).2 = w := by
  rw [Rule.words, List.cons_append, List.cons_append] at h
  obtain ⟨t, us, hus, hc, hword, hrest⟩ := comments_of_words h
  obtain ⟨tree, hread, hkind, htree, hclean, hleft⟩ := ofTree?_rule hc hword hrest hw hdepth
  have hhead : isAtRule (t :: us) = true := by
    rw [word, Word.mk.injEq] at hword
    rw [isAtRule_cons hc, isHead, hword.1, hword.2.2]
    rfl
  rw [entry, seq_read, hus, choose_pos hhead, hread]
  refine ⟨⟨tree, ?_, htree⟩, ?_, hleft⟩
  · rw [List.filter_append, filter_comments, List.filter_cons_of_pos (by rw [hkind]; rfl)]
    rfl
  · rw [Tree.anyError_append, anyError_comments, Tree.anyError_cons, hclean]
    rfl

/-- The next rule starts a line. -/
theorem lineOver_flatMap (rs : List Rule) : LineOver (rs.flatMap Rule.words) := by
  intro x hx
  cases rs with
  | nil => exact absurd hx (by simp)
  | cons r rs =>
    rw [List.flatMap_cons, Rule.words, List.cons_append, List.head?_cons, Option.some.injEq] at hx
    rw [← hx]

/-- Tokens with the words of a rule list are read as its rules, one entry each. -/
theorem ofTree?_entries {limit : Nat} (rs : List Rule) {ts : List Token}
    (h : words ts = rs.flatMap Rule.words) (hdepth : ∀ r ∈ rs, r.body.depth ≤ limit) :
    let trees := (readParts hasNext (entry limit) (entry_consumes limit) ts).1.flatten
    Tree.anyError trees = false ∧
      (trees.filter (·.kind != .comment)).mapM Rule.ofTree? = some rs := by
  induction rs generalizing ts with
  | nil =>
    have hstop : hasNext ts = false := by
      rw [hasNext, next?_eq_none_of_words h]
      rfl
    rw [readParts_neg hstop]
    exact ⟨rfl, rfl⟩
  | cons r rs ih =>
    rw [List.flatMap_cons] at h
    obtain ⟨⟨tree, hfilter, htree⟩, hclean, hrest⟩ :=
      ofTree?_entry h (lineOver_flatMap rs) (hdepth r List.mem_cons_self)
    obtain ⟨hcleanRest, hrules⟩ := ih hrest fun r' hr' => hdepth r' (List.mem_cons_of_mem _ hr')
    have hnext : hasNext ts = true := by
      rw [Rule.words, List.cons_append] at h
      obtain ⟨t, us, hus, -⟩ := comments_of_words h
      rw [hasNext, next?_of_comments hus]
      rfl
    rw [readParts_pos hnext]
    refine ⟨?_, ?_⟩
    · rw [List.flatten_cons, Tree.anyError_append, hclean, hcleanRest]
      rfl
    · rw [List.flatten_cons, List.filter_append, hfilter, List.singleton_append, List.mapM_cons, htree,
        hrules]
      rfl

/-- A rule list that is written in any layout, with groups and options nested up to the limit, has a
tree without errors, and what the tree stands for is the rule list. -/
theorem parse_of_written {limit : Nat} {rules : List Rule} {source : Text}
    (h : Written rules source) (hdepth : ∀ r ∈ rules, r.body.depth ≤ limit) :
    (parse limit source).root.hasError = false ∧
      readRules? (parse limit source).root = some rules := by
  have hwords : words (significant source) = rules.flatMap Rule.words := scanWords_of_written h
  obtain ⟨hclean, hrules⟩ := ofTree?_entries rules hwords hdepth
  -- after the last entry there are only comments
  constructor
  · show Tree.anyError ((ruleList limit).read _).1 = false
    rw [ruleList, seq_read, Tree.anyError_append, anyError_comments]
    exact (Bool.or_false _).trans hclean
  · show (((ruleList limit).read _).1.filter _).mapM Rule.ofTree? = some rules
    rw [ruleList, seq_read, List.filter_append, filter_comments, List.append_nil]
    exact hrules

/-- A line with a comment, then a rule with a comment in the middle of a group. -/
theorem parse_of_written_folded :
    let byte : Repetition := .mk none (.value (.numeric ⟨'x', ['4', '1'], rfl⟩))
    let choice : Alternation :=
      .cons (.one (.mk none (.name ⟨['b'], rfl⟩))) (.one (.one (.mk none (.option (.one (.one byte))))))
    let body : Alternation :=
      .one (.cons (.mk (some (.between (some ⟨['2'], rfl⟩) none)) (.group choice))
        (.one (.mk none (.value (.string none ⟨['y'], rfl⟩)))))
    let rules : List Rule := [⟨⟨['a'], rfl⟩, true, body⟩]
    let source : Text := "; top\r\na =/ 2*(b ;c\n / [%x41]) \"y\"\r".toList
    Written rules source ∧ (∀ r ∈ rules, r.body.depth ≤ 2) ∧
      (parse 2 source).root.hasError = false ∧
      readRules? (parse 2 source).root = some rules := by
  intro byte choice body rules source
  have hblank : Gap [' '] := .blank rfl .nil
  have htop : LineEnd (';' :: ([' ', 't', 'o', 'p'] ++ ['\r', '\n'])) :=
    .comment (by simp [Text.isRowBreak]) .crlf
  have hcomment : LineEnd (';' :: (['c'] ++ ['\n'])) :=
    .comment (by simp [Text.isRowBreak]) .lf
  have hfold : Gap (' ' :: ((';' :: (['c'] ++ ['\n'])) ++ [' '])) :=
    .blank rfl (.fold hcomment rfl .nil)
  have hchoice : choice.Written _ :=
    .cons (.one (.plain (.name _))) hfold hblank
      (.one (.one (.plain (.option .nil (.one (.one (.plain (.value _)))) .nil))))
  have hbody : body.Written _ :=
    .one (.cons (.counted _ (.group .nil hchoice .nil)) hblank (by decide) (.one (.plain (.value _))))
  have hrule : Rule.Written ⟨⟨['a'], rfl⟩, true, body⟩ _ :=
    .mk hblank hblank hbody .nil (.plain .cr)
  have hpieces : Written rules _ := .skip .nil htop (.rule hrule .nil)
  have hwritten : Written rules source := by
    refine cast (congrArg (Written rules) ?_) hpieces
    unfold source
    decide +kernel
  have hdepth : ∀ r ∈ rules, r.body.depth ≤ 2 := by
    intro r hr
    rw [List.mem_singleton.mp hr]
    decide
  exact ⟨hwritten, hdepth, parse_of_written hwritten hdepth⟩

end Abstract

end Abnf
