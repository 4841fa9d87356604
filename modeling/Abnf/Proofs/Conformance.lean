/-
Every tree conforms to the grammar of trees.

Each reader of the grammar forms an expression over kinds, whatever tokens it is given: an element is
one tree of a few kinds, a concatenation is one tree or none, and so on up to the whole text
(`ruleList_forms`).  A reader is asked for one tree only where the next token starts one; comments in
front of that token are no part of the expression.  So all sites of all trees fit (`tree_conforms`).
-/
import Mathlib.Data.List.Chain
import Abnf.Proofs.TreeGrammar

namespace Abnf

namespace Grammar

open Reader Content
open RegularExpression (char)

/-! ### Inside of rules -/

/-- What holds of each round of a loop holds of its parts, if each round keeps what it relies on. -/
theorem forall_readParts {p : List Token → Bool} {r : Reader} {c : Consumes p r}
    {q : List Token → Prop} {F : List Tree → Prop} (hnext : ∀ us, q us → q (r.read us).2)
    (h : ∀ us, q us → p us = true → F (r.read us).1) (ts : List Token) (hq : q ts) :
    ∀ part ∈ (readParts p r c ts).1, F part := by
  fun_induction readParts p r c ts with
  | case1 ts hp more ih =>
    intro part hpart
    rcases List.mem_cons.mp hpart with rfl | hpart
    · exact h ts hq hp
    · exact ih (hnext ts hq) part hpart
  | case2 ts hp =>
    intro part hpart
    exact absurd hpart List.not_mem_nil

section

variable {limit n : Nat} {ts : List Token}

theorem token_forms {kind : Kind} (hk : kind ∈ tokens) (h : isAt kind ts = true) :
    Forms limit (Inside limit n) (char kind) (token.read ts).1 := by
  obtain ⟨t, us, hus, hkind, -, hc⟩ := comments_of_isAt h
  rw [token_read hus]
  refine Forms.afterComments (Forms.single (x := .leaf t) hkind ?_ fun ancestors _ => ?_) ts
  · intro hcomment
    rw [hcomment] at hk
    exact absurd hk (by decide)
  · exact Tree.fitsBelow_leaf (isLeaf_of_mem_tokens (by rw [hkind]; exact hk))

theorem ifAt_forms {kind : Kind} (hk : kind ∈ tokens) (ts : List Token) :
    Forms limit (Inside limit n) (maybe (char kind)) ((ifAt kind).read ts).1 := by
  cases h : isAt kind ts with
  | true =>
    rw [ifAt, choose_pos h]
    exact (token_forms hk h).maybe
  | false =>
    rw [ifAt, choose_neg h]
    exact Forms.nil (mem_maybe.mpr (Or.inl rfl))

/-- A star and the number after it. -/
theorem star_forms (h : isAt .star ts = true) :
    Forms limit (Inside limit n) (char .star * maybe (char .number))
      ((seq token (ifAt .number)).read ts).1 :=
  (token_forms (by decide) h).append (ifAt_forms (by decide) _)

/-- A repeat is a number, or a star with numbers around it. -/
theorem repeatCount_forms (h : isAtRepeat ts = true) :
    Forms limit (Inside limit n) (char .repeatCount) (repeatCount.read ts).1 := by
  rw [repeatCount, node_read]
  refine Forms.afterComments (Forms.wrap rfl ?_) ts
  have hat : isAtRepeat (comments.read ts).2 = true := by rw [isAtRepeat_comments, h]
  generalize (comments.read ts).2 = us at hat
  rw [seq_read]
  cases hnumber : isAt .number us with
  | true =>
    have hfirst : Forms limit (Inside limit n) (char .number) ((ifAt .number).read us).1 := by
      rw [ifAt, choose_pos hnumber]
      exact token_forms (by decide) hnumber
    generalize ((ifAt .number).read us).2 = vs
    cases hstar : isAt .star vs with
    | true =>
      rw [choose_pos hstar]
      exact (hfirst.maybe.append (star_forms hstar)).mono fun w hw => Or.inr hw
    | false =>
      rw [choose_neg hstar, show (nothing.read vs).1 = [] from rfl, List.append_nil]
      exact hfirst.mono fun w hw => Or.inl hw
  | false =>
    have hstar : isAt .star us = true := by simpa [isAtRepeat, hnumber] using hat
    have hnone : (ifAt .number).read us = ([], us) := by rw [ifAt, choose_neg hnumber]; rfl
    rw [hnone, choose_pos hstar]
    have hempty : Forms limit (Inside limit n) (maybe (char .number)) [] :=
      Forms.nil (mem_maybe.mpr (Or.inl rfl))
    exact (hempty.append (star_forms hstar)).mono fun w hw => Or.inr hw

/-- What brackets enclose, as the readers of an element rely on it. -/
def BodyForms (limit n : Nat) (trees : List Tree) : Prop :=
  Forms limit (Inside limit n) (maybe (oneOf bodies)) trees

/-- A single token in an error node. -/
theorem error_forms {place : List (Nat × Tree) → Prop} {t : Token} (hk : t.kind ∈ tokens)
    (hparent : ∀ ancestors, place ancestors → ancestors.head?.map (·.2.kind) ≠ some .sourceFile)
    (h : ∀ ancestors, place ancestors →
      ancestors.head?.map (·.2.kind) = some .elements ∧ t.kind ∈ strays ∨
        t.kind.isOpener = true ∧ ancestors.countP (·.2.kind.isBracketed) = limit) :
    Forms limit place (char .error) [.branch .error [.leaf t]] := by
  refine Forms.single rfl (by decide) fun ancestors hplace => ?_
  refine Tree.fitsBelow_node (fun id => ?_) fun id x hx => ?_
  · refine ⟨?_, fun hname => ?_, fun _ hroot => absurd hroot (hparent ancestors hplace), fun _ _ => ?_⟩
    · have hkinds : Tree.kindsOf [.leaf t] = [t.kind] := by
        refine Tree.kindsOf_singleton fun hc => ?_
        rw [Tree.kind] at hc
        rw [hc] at hk
        exact absurd hk (by decide)
      show Tree.kindsOf [.leaf t] ∈ (oneOf pieces * many (oneOf pieces)).matches'
      rw [hkinds]
      exact append_mem_mul (mem_oneOf.mpr ⟨t.kind, List.mem_append_right _ hk, rfl⟩)
        (Language.nil_mem_kstar _)
    · exact absurd hname Bool.false_ne_true
    · exact ⟨t, rfl, h ancestors hplace⟩
  · rw [List.mem_singleton.mp hx]
    exact Tree.fitsBelow_leaf (isLeaf_of_mem_tokens hk)

/-- What starts with an opener is a group or an option, or at the nesting limit an error. -/
theorem bracketed_forms {kind opener close : Kind} (hb : Brackets kind opener close)
    {body : Option (Thunk Reader)} (hbody : Level (fun n _ trees _ => BodyForms limit n trees) n body)
    (h : isAt opener ts = true) :
    Forms limit (Inside limit n) (oneOf Content.elements) ((bracketed kind close body).read ts).1 := by
  obtain ⟨t, us, hus, hkind, hline, hc⟩ := comments_of_isAt h
  have hopener : opener ∈ tokens := by cases hb <;> decide
  cases hbody with
  | none =>
    rw [bracketed, node_read, hus, token_read_cons hc]
    have herror : Forms limit (Inside limit 0) (char .error) [.branch .error [.leaf t]] := by
      refine error_forms (by rw [hkind]; exact hopener) (fun _ hin => hin.parent) fun _ hin => ?_
      refine Or.inr ⟨?_, hin.levels⟩
      rw [hkind]
      cases hb <;> rfl
    exact (herror.oneOf (by decide)).afterComments ts
  | @some n r hr hstop =>
    have hclose : close ∈ tokens := by cases hb <;> decide
    have helement : kind ∈ Content.elements := by cases hb <;> decide
    have hfirst : Forms limit (Inside limit n) (char opener) (token.read (comments.read ts).2).1 :=
      token_forms hopener (by rw [isAt_comments, h])
    rw [bracketed, node_read, seq_read, seq_read]
    refine Forms.afterComments (Forms.oneOf (Forms.bracket hb ?_) helement) ts
    have hall := hfirst.append ((hr (token.read (comments.read ts).2).2).append
      (ifAt_forms hclose (r.get.read (token.read (comments.read ts).2).2).2))
    cases hb <;> exact hall

/-- An element is one tree where one starts. -/
theorem element_forms {body : Option (Thunk Reader)}
    (hbody : Level (fun n _ trees _ => BodyForms limit n trees) n body) (h : isAtElement ts = true) :
    Forms limit (Inside limit n) (oneOf Content.elements) ((element body).read ts).1 := by
  rw [element]
  cases hid : isAt .identifier ts with
  | true =>
    obtain ⟨t, us, hus, hkind, -, -⟩ := comments_of_isAt hid
    rw [choose_pos hid, show name.read ts = _ from single_read hus]
    refine Forms.afterComments ?_ ts
    exact (Forms.name hkind).widen fun k hk => List.mem_append_left _ hk
  | false =>
    rw [choose_neg hid]
    cases hparen : isAt .leftParen ts with
    | true =>
      rw [choose_pos hparen]
      exact bracketed_forms .group hbody hparen
    | false =>
      rw [choose_neg hparen]
      cases hbracket : isAt .leftBracket ts with
      | true =>
        rw [choose_pos hbracket]
        exact bracketed_forms .option hbody hbracket
      | false =>
        rw [choose_neg hbracket]
        have hvalue : isAtValue ts = true := by
          simpa [isAtElement, hid, hparen, hbracket] using h
        rw [choose_pos hvalue]
        simp only [isAtValue, Bool.or_eq_true] at hvalue
        rcases hvalue with (hvalue | hvalue) | hvalue
        · exact (token_forms (by decide) hvalue).oneOf (by decide)
        · exact (token_forms (by decide) hvalue).oneOf (by decide)
        · exact (token_forms (by decide) hvalue).oneOf (by decide)

/-- Where no element starts, none is read. -/
theorem element_of_not {body : Option (Thunk Reader)} (h : isAtElement ts = false) :
    (element body).read ts = ([], ts) := by
  simp only [isAtElement, Bool.or_eq_false_iff] at h
  obtain ⟨⟨⟨hid, hparen⟩, hbracket⟩, hvalue⟩ := h
  rw [element, choose_neg hid, choose_neg hparen, choose_neg hbracket, choose_neg hvalue]
  rfl

/-- A repetition is one tree where one starts. -/
theorem repetition_forms {body : Option (Thunk Reader)}
    (hbody : Level (fun n _ trees _ => BodyForms limit n trees) n body)
    (h : isAtRepetition ts = true) :
    Forms limit (Inside limit n) (oneOf parts) ((repetition body).read ts).1 := by
  rw [repetition]
  cases hrepeat : isAtRepeat ts with
  | true =>
    rw [choose_pos hrepeat, node_read]
    have hcount : Forms limit (Inside limit n) (char .repeatCount)
        (repeatCount.read (comments.read ts).2).1 :=
      repeatCount_forms (by rw [isAtRepeat_comments, hrepeat])
    have hchildren : Forms limit (Inside limit n) (ofKind .repetition)
        ((seq repeatCount (element body)).read (comments.read ts).2).1 := by
      refine hcount.append ?_
      generalize (repeatCount.read (comments.read ts).2).2 = us
      cases helement : isAtElement us with
      | true => exact (element_forms hbody helement).maybe
      | false =>
        rw [element_of_not helement]
        exact Forms.nil (mem_maybe.mpr (Or.inl rfl))
    exact ((Forms.wrap rfl hchildren).oneOf (by decide)).afterComments ts
  | false =>
    rw [choose_neg hrepeat]
    have helement : isAtElement ts = true := by simpa [isAtRepetition, hrepeat] using h
    exact (element_forms hbody helement).widen fun k hk => List.mem_cons_of_mem _ hk

/-- A concatenation is a node over two or more parts, or one part, or nothing. -/
theorem concatenation_forms {body : Option (Thunk Reader)}
    (hbody : Level (fun n _ trees _ => BodyForms limit n trees) n body) (ts : List Token) :
    Forms limit (Inside limit n) (maybe (oneOf items)) ((concatenation body).read ts).1 := by
  refine Forms.afterComments ?_ ts
  have hparts := forall_readParts (c := repetition_consumes body) (q := fun _ => True)
    (F := Forms limit (Inside limit n) (oneOf parts)) (fun _ _ => trivial)
    (fun us _ hp => repetition_forms hbody hp) (comments.read ts).2 trivial
  refine Forms.wrapParts rfl (by decide) (fun first second more hread => ?_) fun first hread => ?_
  · rw [hread] at hparts
    refine (hparts first (by simp)).append ((hparts second (by simp)).append ?_)
    exact Forms.flatten fun part hpart => hparts part (by simp [hpart])
  · rw [hread] at hparts
    exact ((hparts first (by simp)).widen fun k hk => List.mem_cons_of_mem _ hk).maybe

/-- An alternation is a node over items and slashes, or one item, or nothing. -/
theorem alternationOver_forms {body : Option (Thunk Reader)}
    (hbody : Level (fun n _ trees _ => BodyForms limit n trees) n body) (ts : List Token) :
    BodyForms limit n ((alternationOver body).read ts).1 := by
  refine Forms.afterComments ?_ ts
  have hfirst : Forms limit (Inside limit n) (maybe (oneOf items))
      ((concatenation body).read (comments.read ts).2).1 := concatenation_forms hbody _
  have hrest := forall_readParts (c := slash_consumes (concatenation body)) (q := fun _ => True)
    (F := Forms limit (Inside limit n) (char .slash * maybe (oneOf items))) (fun _ _ => trivial)
    (fun us _ hslash => (token_forms (by decide) hslash).append (concatenation_forms hbody _))
    ((concatenation body).read (comments.read ts).2).2 trivial
  refine Forms.wrapParts rfl (by decide) (fun first second more hread => ?_) fun first hread => ?_
  · obtain ⟨rfl, hmore⟩ := List.cons.inj hread
    rw [hmore] at hrest
    refine hfirst.append ((hrest second (by simp)).append ?_)
    exact Forms.flatten fun part hpart => hrest part (by simp [hpart])
  · obtain ⟨rfl, -⟩ := List.cons.inj hread
    refine hfirst.mono fun w hw => ?_
    rcases hw with hw | hw
    · exact Or.inl hw
    · obtain ⟨k, hk, hw⟩ := mem_oneOf.mp hw
      exact Or.inr (mem_oneOf.mpr ⟨k, List.mem_cons_of_mem _ hk, hw⟩)

/-- Alternations at every level. -/
theorem alternation_forms (limit n : Nat) (ts : List Token) :
    BodyForms limit n ((alternation n).read ts).1 := by
  induction n generalizing ts with
  | zero => exact alternationOver_forms .none ts
  | succ n ih =>
    have hbody : Level (fun n _ trees _ => BodyForms limit n trees) (n + 1)
        (some (Thunk.mk fun _ => alternation n)) :=
      .some ih (alternation_stops n)
    exact alternationOver_forms hbody ts

end

/-! ### Rules and other lines -/

/-- What stops an alternation inside of a rule is one of the tokens that fit nowhere. -/
theorem mem_strays {t : Token} (h : IsLeaf t) (hplain : isPlain t.kind = false)
    (hid : t.kind ≠ .identifier) (hparen : t.kind ≠ .leftParen) (hbracket : t.kind ≠ .leftBracket)
    (hc : t.isComment = false) : t.kind ∈ strays := by
  obtain ⟨hlex, hsig⟩ := h
  rw [Token.isSignificant] at hsig
  rw [Token.isComment] at hc
  revert hlex hsig hplain hid hparen hbracket hc
  cases t.kind <;> simp [Kind.isLexical, isPlain, strays]

/-- The elements of a rule, with stray tokens between them. -/
theorem elements_forms (limit : Nat) {ts : List Token} (hts : ∀ t ∈ ts, IsLeaf t) :
    Forms limit (BelowElements limit) (ofKind .elements) ((elements limit).read ts).1 := by
  have hbody : ∀ us, Forms limit (BelowElements limit) (maybe (oneOf bodies))
      ((alternation limit).read us).1 :=
    fun us => (alternation_forms limit limit us).at_place fun _ h => h.1
  refine (hbody ts).append (Forms.flatten ?_)
  -- each round starts where an alternation has stopped
  refine forall_readParts (q := fun us => Stops us ∧ ∀ t ∈ us, IsLeaf t) (fun us hus => ?_)
    (fun us hus hrule => ?_) _
    ⟨alternation_stops limit ts, fun t ht => hts t (mem_of_mem_read ht)⟩
  · exact ⟨alternation_stops limit _, fun t ht => hus.2 t (mem_of_mem_read ht)⟩
  · refine Forms.append ?_ (hbody _)
    obtain ⟨t, vs, hvs, hplain, hid, hparen, hbracket, hc, -, -⟩ := comments_of_stops hus.1 hrule
    have hleaf : IsLeaf t := by
      refine hus.2 t (mem_of_mem_read (r := comments) ?_)
      rw [hvs]
      exact List.mem_cons_self
    have hstray := mem_strays hleaf hplain hid hparen hbracket hc
    rw [node_read, hvs, token_read_cons hc]
    refine Forms.afterComments ?_ us
    refine error_forms (List.mem_append_left _ hstray) (fun _ h => h.1.parent) fun _ h => ?_
    exact Or.inl ⟨h.2, hstray⟩

/-- What follows the name of a rule is what defines it, or nothing. -/
theorem afterName_forms (limit : Nat) {place : List (Nat × Tree) → Prop} (ts : List Token) :
    Forms limit place (maybe (char .definedAs)) (afterName.read ts).1 := by
  rw [afterName, seq_read]
  refine Forms.thenComments ?_ _
  cases hat : isAtDefinedAs ts with
  | true =>
    obtain ⟨t, us, hus, hkind, -, hc⟩ := comments_of_isAtDefinedAs hat
    have hmem : t.kind ∈ [Kind.equals, Kind.incrementalEquals] := by
      rcases hkind with hkind | hkind <;> simp [hkind]
    have hleaf : IsLeaf t := by
      refine isLeaf_of_mem_tokens ?_
      rcases hkind with hkind | hkind <;> rw [hkind] <;> decide
    rw [choose_pos hat, node_read, hus, token_read_cons hc]
    refine Forms.maybe (Forms.afterComments ?_ ts)
    refine Forms.single rfl (by decide) fun ancestors _ => ?_
    refine Tree.fitsBelow_node (fun id => ?_) fun id x hx => ?_
    · refine Site.fits_of_content rfl (fun h => absurd h Kind.noConfusion) ?_
      show Tree.kindsOf [.leaf t] ∈ _
      rw [Tree.kindsOf_singleton fun h => ?_]
      · exact mem_oneOf.mpr ⟨t.kind, hmem, rfl⟩
      · rw [Token.isComment, beq_eq_false_iff_ne] at hc
        exact hc h
    · rw [List.mem_singleton.mp hx]
      exact Tree.fitsBelow_leaf hleaf
  | false =>
    rw [choose_neg hat]
    exact Forms.nil (mem_maybe.mpr (Or.inl rfl))

/-- A rule is its name, what defines it, and its elements. -/
theorem rule_forms (limit : Nat) {t : Token} (h : t.isHead = true) {us : List Token}
    (hus : ∀ u ∈ us, IsLeaf u) :
    Forms limit BelowRoot (char .rule) ((rule limit).read (t :: us)).1 := by
  have hkind := Token.kind_of_isHead h
  have hc : t.isComment = false := by rw [Token.isComment, hkind]; rfl
  have hbody : Forms limit (BelowElements limit) (ofKind .elements)
      ((elements limit).read (afterName.read us).2).1 :=
    elements_forms limit fun u hu => hus u (mem_of_mem_read hu)
  have helements : Forms limit Outermost (char .elements)
      [elementsNode limit (nameNode t :: (afterName.read us).1) (afterName.read us).2] := by
    refine Forms.single rfl (by decide) fun ancestors hout => ?_
    refine Tree.fitsBelow_node (fun id => ?_) fun id x hx => hbody.fits x hx _ ⟨⟨?_, ?_⟩, rfl⟩
    · exact Site.fits_of_content rfl (fun h => absurd h Kind.noConfusion) hbody.kinds
    · rw [List.countP_cons_of_neg (by simp [Tree.kind, Kind.isBracketed])]
      rw [Outermost] at hout
      omega
    · simp [Tree.kind]
  have hchildren := (Forms.name hkind).append ((afterName_forms limit us).append helements)
  rw [rule_read limit hc]
  refine Forms.single rfl (by decide) fun ancestors hroot => ?_
  refine Tree.fitsBelow_node (fun id => ?_) fun id x hx => ?_
  · exact Site.fits_of_content rfl (fun h => absurd h Kind.noConfusion) hchildren.kinds
  · exact hchildren.fits x hx _ (hroot.1.cons rfl)

/-- A token of a tree is a comment, a name or one of the other tokens. -/
theorem mem_tokens {t : Token} (h : IsLeaf t) (hid : t.kind ≠ .identifier)
    (hc : t.isComment = false) : t.kind ∈ tokens := by
  obtain ⟨hlex, hsig⟩ := h
  rw [Token.isSignificant] at hsig
  rw [Token.isComment] at hc
  revert hlex hsig hid hc
  cases t.kind <;> simp [Kind.isLexical, tokens, strays]

theorem junkItem_forms {limit : Nat} {place : List (Nat × Tree) → Prop} {ts us : List Token}
    {t : Token} (hts : (comments.read ts).2 = t :: us) (hleaf : IsLeaf t) :
    Forms limit place (oneOf pieces) (junkItem.read ts).1 := by
  have hc := isComment_of_next? (next?_of_comments hts)
  rw [junkItem_read hts]
  refine Forms.afterComments ?_ ts
  by_cases hid : t.kind = .identifier
  · rw [if_pos hid]
    exact (Forms.name hid).widen fun k hk => List.mem_append_left _ hk
  · rw [if_neg hid]
    have hmem := mem_tokens hleaf hid hc
    refine Forms.oneOf (Forms.single (x := .leaf t) rfl ?_ fun _ _ => Tree.fitsBelow_leaf hleaf)
      (List.mem_append_right _ hmem)
    rwa [Token.isComment, beq_eq_false_iff_ne] at hc

/-- A line outside of rules is an error that starts with the first token of the line. -/
theorem junk_forms (limit : Nat) {t : Token} (hc : t.isComment = false) (h : t.isHead = false)
    {us : List Token} (hts : ∀ u ∈ t :: us, IsLeaf u) :
    Forms limit BelowRoot (char .error) (junk.read (t :: us)).1 := by
  have hone := comments_cons hc us
  have hfirst : Forms limit (fun _ => True) (oneOf pieces) (junkItem.read (t :: us)).1 :=
    junkItem_forms (congrArg Prod.snd hone) (hts t List.mem_cons_self)
  have hrest := forall_readParts (c := junkItem_consumes.mono hasNext_of_inRule)
    (q := fun vs => ∀ u ∈ vs, IsLeaf u) (F := Forms limit (fun _ => True) (oneOf pieces))
    (fun vs hvs u hu => hvs u (mem_of_mem_read hu))
    (fun vs hvs hrule => by
      obtain ⟨u, ws, hws, -, -, -⟩ := comments_of_inRule hrule
      refine junkItem_forms hws (hvs u (mem_of_mem_read (r := comments) ?_))
      rw [hws]
      exact List.mem_cons_self)
    (junkItem.read (t :: us)).2 fun u hu => hts u (mem_of_mem_read hu)
  have hline := hfirst.append (Forms.flatten hrest)
  have hleaves : Tree.leavesAll (junkItem.read (t :: us)).1 = [t] := by
    rw [junkItem_read (congrArg Prod.snd hone), hone]
    split <;> rfl
  rw [junk, node_read, hone, List.nil_append]
  refine Forms.single rfl (by decide) fun ancestors hroot => ?_
  refine Tree.fitsBelow_node (fun id => ?_) fun id x hx => hline.fits x hx _ trivial
  refine ⟨hline.kinds, fun hname => absurd hname Bool.false_ne_true, fun _ _ => ?_, fun _ hnot => ?_⟩
  · show ∃ first rest, Token.withoutComments (Tree.leavesAll ((junkItem.read (t :: us)).1 ++ _)) =
      first :: rest ∧ first.isHead = false
    rw [Tree.leavesAll_append, hleaves, List.singleton_append, Token.withoutComments_cons hc]
    exact ⟨t, _, rfl, h⟩
  · exact absurd hroot.2 hnot

/-- The rules and the other lines of a text. -/
theorem entry_forms (limit : Nat) {ts : List Token} (hts : ∀ t ∈ ts, IsLeaf t)
    (h : hasNext ts = true) :
    Forms limit BelowRoot (oneOf [.rule, .error]) ((entry limit).read ts).1 := by
  obtain ⟨t, hnext⟩ := Option.isSome_iff_exists.mp h
  obtain ⟨us, hus⟩ := comments_of_next? hnext
  have hc := isComment_of_next? hnext
  have hleaf : ∀ u ∈ t :: us, IsLeaf u := by
    intro u hu
    rw [← hus] at hu
    exact hts u (mem_of_mem_read hu)
  rw [entry, seq_read, hus]
  refine Forms.afterComments ?_ ts
  cases hhead : t.isHead with
  | true =>
    rw [choose_pos (by rw [isAtRule_cons hc, hhead])]
    exact (rule_forms limit hhead fun u hu => hleaf u (List.mem_cons_of_mem _ hu)).oneOf (by decide)
  | false =>
    rw [choose_neg (by rw [isAtRule_cons hc, hhead])]
    exact (junk_forms limit hc hhead hleaf).oneOf (by decide)

theorem ruleList_forms (limit : Nat) {ts : List Token} (hts : ∀ t ∈ ts, IsLeaf t) :
    Forms limit BelowRoot (ofKind .sourceFile) ((ruleList limit).read ts).1 := by
  rw [ruleList, seq_read]
  refine Forms.thenComments (Forms.flatten ?_) _
  exact forall_readParts (q := fun us => ∀ t ∈ us, IsLeaf t)
    (fun us hus t ht => hus t (mem_of_mem_read ht)) (fun us hus hnext => entry_forms limit hus hnext) ts hts

end Grammar

/-- Of two neighbours among the elements of a rule, one is an error. -/
theorem Content.isChain_of_elements {w : List Kind} (h : w ∈ (ofKind .elements).matches') :
    w.IsChain fun a b => a = .error ∨ b = .error := by
  obtain ⟨first, hfirst, more, hmore, rfl⟩ := Language.mem_mul.mp h
  obtain ⟨pieces, rfl, hpieces⟩ := Language.mem_kstar.mp hmore
  -- after the first body, errors and bodies take turns, and an error comes first
  have hrest : pieces.flatten.IsChain (fun a b => a = Kind.error ∨ b = Kind.error) ∧
      ∀ k ∈ pieces.flatten.head?, k = Kind.error := by
    clear h hmore
    induction pieces with
    | nil => simp
    | cons piece pieces ih =>
      obtain ⟨error, herror, body, hbody, rfl⟩ := Language.mem_mul.mp (hpieces _ List.mem_cons_self)
      obtain ⟨hchain, hhead⟩ := ih fun piece hpiece => hpieces piece (List.mem_cons_of_mem _ hpiece)
      rw [mem_char.mp herror]
      refine ⟨List.IsChain.cons ?_ fun _ _ => Or.inl rfl, fun k hk => (Option.some.inj hk).symm⟩
      rcases hbody with rfl | hbody
      · exact hchain
      · obtain ⟨k, -, rfl⟩ := mem_oneOf.mp hbody
        exact hchain.cons fun b hb => Or.inr (hhead b hb)
  rcases hfirst with rfl | hfirst
  · exact hrest.1
  · obtain ⟨k, -, rfl⟩ := mem_oneOf.mp hfirst
    exact hrest.1.cons fun b hb => Or.inr (hrest.2 b hb)

/-- Every tree conforms to the grammar of trees, whatever the text holds.  The children of each node
other than comments are what its kind asks for, a name is that of a core rule iff it is marked as one,
and an error is a line that does not start with a name in the first column, a single token that fits
nowhere between the elements of a rule, or an opener at the nesting limit.  Of two neighbours among the
elements of a rule, one is an error. -/
theorem tree_conforms (limit : Nat) (source : Text) :
    ∀ s ∈ (parse limit source).sites, s.Fits limit ∧
      (s.node.kind = .elements →
        (Tree.kindsOf s.node.children).IsChain fun a b => a = .error ∨ b = .error) := by
  have hforms : Grammar.Forms limit Grammar.BelowRoot (Content.ofKind .sourceFile)
      (parse limit source).root.children :=
    Grammar.ruleList_forms limit fun t ht => isLeaf_of_mem_significant ht
  have hroot : (parse limit source).root.FitsBelow limit [] := by
    refine Tree.fitsBelow_node (fun id => ?_) fun id x hx => hforms.fits x hx _ ⟨rfl, rfl⟩
    exact Site.fits_of_content rfl (fun h => absurd h Kind.noConfusion) hforms.kinds
  intro s hs
  have hfits := hroot 0 s hs
  refine ⟨hfits, fun hkind => Content.isChain_of_elements ?_⟩
  rw [← hkind]
  exact hfits.content

/-- An opener at the nesting limit, where a repeat asks for an element, before a stray closer and a line
that is no rule. -/
theorem tree_conforms_at_limit :
    let tree := parse 0 "a = 2(b ] / c\n= d".toList
    ∃ s ∈ tree.sites, s.node.kind = .error ∧ s.parentKind? = some .repetition ∧
      ∃ t, s.node.children = [.leaf t] ∧ t.kind.isOpener = true ∧ s.levels = 0 := by
  intro tree
  have hsome : (tree.sites.find? fun s =>
      s.node.kind == .error && s.parentKind? == some .repetition).isSome = true := by decide +kernel
  obtain ⟨s, hs⟩ := Option.isSome_iff_exists.mp hsome
  have hmem := List.mem_of_find?_eq_some hs
  have hboth := List.find?_some hs
  rw [Bool.and_eq_true, beq_iff_eq, beq_iff_eq] at hboth
  obtain ⟨hkind, hparent⟩ := hboth
  have hfits := (tree_conforms 0 "a = 2(b ] / c\n= d".toList s hmem).1
  obtain ⟨t, ht, ⟨hbetween, -⟩ | hopener⟩ := hfits.token hkind (by rw [hparent]; decide)
  · rw [hparent] at hbetween
    exact absurd hbetween (by decide)
  · exact ⟨s, hmem, hkind, hparent, t, ht, hopener⟩

end Abnf
