/-
Which grammars have errors.

Whether the tree of a text holds an error can be told from the tokens in one pass (`hasError_iff`).
The check goes through the tokens of each run with a stack of the brackets that are open: a closer
takes the stack down to below the nearest opener of its own kind, past openers of the other kind
(`openAfter`).  The grammar has no such stack; its readers call each other, and a closer that is not
their own makes them return.  The two agree because a stop of an alternation means the same with and
without the brackets that nothing closes (`faulty_of_stops`).
-/
import Abnf.Proofs.Lossless
import Abnf.Proofs.Runs

namespace Abnf

namespace Kind

/-- Whether this opens a group or an option. -/
def isOpener : Kind → Bool
  | leftParen | leftBracket => true
  | _ => false

/-- The opener that this closes. -/
def opener? : Kind → Option Kind
  | rightParen => some leftParen
  | rightBracket => some leftBracket
  | _ => none

/-- Whether this says that a rule is defined. -/
def isDefiner : Kind → Bool
  | equals | incrementalEquals => true
  | _ => false

end Kind

/-! ### The check -/

/-- The openers that are open after a token, from the innermost to the outermost one, if the token
fits: an opener may not come at the nesting limit, and a closer needs an opener of its own kind. -/
def openAfter (limit : Nat) (stack : List Kind) (t : Token) : Option (List Kind) :=
  if t.kind.isOpener then
    if stack.length < limit then some (t.kind :: stack) else none
  else
    match t.kind.opener? with
    | some opener => (stack.dropWhile (· != opener)).tail?
    | none => some stack

/-- Whether some of the tokens that are left of a run do not fit, with some brackets open. -/
def faulty (limit : Nat) (stack : List Kind) (ts : List Token) : Bool :=
  ts.any (·.kind == .unknown) || ts.any (·.kind.isDefiner) ||
    (ts.foldlM (openAfter limit) stack).isNone

/-- Whether a run does not fit: it does not start with a name in the first column, it has an unknown
token, it has a sign of definition anywhere but directly after its first token, or its brackets do not
fit. -/
def runFaulty (limit : Nat) (run : List Token) : Bool :=
  !run.head?.any Token.isHead || run.any (·.kind == .unknown) ||
    (run.eraseIdx 1).any (·.kind.isDefiner) || (run.foldlM (openAfter limit) []).isNone

theorem faulty_nil (limit : Nat) (stack : List Kind) : faulty limit stack [] = false := rfl

/-- A token that does not fit by itself. -/
theorem faulty_of_wrong {limit : Nat} {stack : List Kind} {t : Token} {ts : List Token}
    (h : t.kind = .unknown ∨ t.kind.isDefiner = true) : faulty limit stack (t :: ts) = true := by
  rw [faulty, List.any_cons, List.any_cons]
  rcases h with h | h <;> simp [h]

/-- A bracket that does not fit. -/
theorem faulty_of_none {limit : Nat} {stack : List Kind} {t : Token} {ts : List Token}
    (h : openAfter limit stack t = none) : faulty limit stack (t :: ts) = true := by
  rw [faulty, List.foldlM_cons, h]
  exact Bool.or_true _

/-- A token that fits. -/
theorem faulty_of_some {limit : Nat} {stack stack' : List Kind} {t : Token} {ts : List Token}
    (h : openAfter limit stack t = some stack') (hunknown : t.kind ≠ .unknown)
    (hdef : t.kind.isDefiner = false) : faulty limit stack (t :: ts) = faulty limit stack' ts := by
  rw [faulty, faulty, List.any_cons, List.any_cons, List.foldlM_cons, h, Option.bind_eq_bind,
    Option.bind_some, beq_eq_false_iff_ne.mpr hunknown, hdef]
  rfl

/-- A token that is no bracket and not wrong by itself changes nothing. -/
theorem faulty_of_other {limit : Nat} {stack : List Kind} {t : Token} {ts : List Token}
    (hopen : t.kind.isOpener = false) (hclose : t.kind.opener? = none)
    (hunknown : t.kind ≠ .unknown) (hdef : t.kind.isDefiner = false) :
    faulty limit stack (t :: ts) = faulty limit stack ts :=
  faulty_of_some (by simp [openAfter, hopen, hclose]) hunknown hdef

/-! ### Errors in trees -/

namespace Tree

@[simp]
theorem anyError_nil : anyError [] = false := rfl

@[simp]
theorem anyError_cons (t : Tree) (ts : List Tree) :
    anyError (t :: ts) = (t.hasError || anyError ts) := rfl

@[simp]
theorem anyError_append (ts us : List Tree) :
    anyError (ts ++ us) = (anyError ts || anyError us) := by
  induction ts with
  | nil => rfl
  | cons t ts ih => rw [List.cons_append, anyError_cons, ih, anyError_cons, Bool.or_assoc]

theorem anyError_eq_false {ts : List Tree} (h : ∀ t ∈ ts, t.hasError = false) :
    anyError ts = false := by
  induction ts with
  | nil => rfl
  | cons t ts ih =>
    rw [anyError_cons, h t List.mem_cons_self, ih fun u hu => h u (List.mem_cons_of_mem _ hu)]
    rfl

theorem hasError_branch {kind : Kind} (h : kind ≠ .error) (h' : kind ≠ .unknown) (ts : List Tree) :
    (branch kind ts).hasError = anyError ts := by
  rw [branch, hasError, beq_eq_false_iff_ne.mpr h, beq_eq_false_iff_ne.mpr h']
  rfl

theorem hasError_leaf {t : Token} (h : t.kind ≠ .error) (h' : t.kind ≠ .unknown) :
    (leaf t).hasError = false := by
  rw [hasError, beq_eq_false_iff_ne.mpr h, beq_eq_false_iff_ne.mpr h']
  rfl

theorem hasError_nameNode {t : Token} (h : t.kind = .identifier) :
    (Grammar.nameNode t).hasError = false := by
  have hleaf : (leaf t).hasError = false := hasError_leaf (by simp [h]) (by simp [h])
  unfold Grammar.nameNode
  split <;> rw [hasError_branch (by decide) (by decide), anyError_cons, hleaf] <;> rfl

end Tree

namespace Reader

theorem mem_of_mem_read {r : Reader} {ts : List Token} {t : Token} (h : t ∈ (r.read ts).2) :
    t ∈ ts := by
  rw [← r.keeps ts]
  exact List.mem_append_right _ h

theorem anyError_comments (ts : List Token) : Tree.anyError (comments.read ts).1 = false := by
  refine Tree.anyError_eq_false fun x hx => ?_
  obtain ⟨t, rfl, ht⟩ := mem_comments hx
  have hkind := Token.kind_of_isComment ht
  exact Tree.hasError_leaf (by simp [hkind]) (by simp [hkind])

end Reader

namespace Grammar

open Reader

/-- Whether a token may be a leaf of a tree. -/
def IsLeaf (t : Token) : Prop := t.kind.isLexical = true ∧ t.isSignificant = true

/-- What stops an alternation inside of a rule is wrong by itself or a closer. -/
theorem wrong_or_closer {t : Token} (h : IsLeaf t) (hplain : isPlain t.kind = false)
    (hid : t.kind ≠ .identifier) (hparen : t.kind ≠ .leftParen) (hbracket : t.kind ≠ .leftBracket)
    (hc : t.isComment = false) :
    (t.kind = .unknown ∨ t.kind.isDefiner = true) ∨ ∃ opener, t.kind.opener? = some opener := by
  obtain ⟨hlex, hsig⟩ := h
  simp only [Token.isSignificant, Token.isComment] at hsig hc
  revert hlex hplain hid hparen hbracket hsig hc
  cases t.kind <;> simp [Kind.isLexical, isPlain, Kind.isDefiner, Kind.opener?]

/-- A closer does the same with and without an opener of the other kind on top. -/
theorem openAfter_other (limit : Nat) (stack : List Kind) {t : Token} {opener top : Kind}
    (h : t.kind.opener? = some opener) (hne : top ≠ opener) :
    openAfter limit (top :: stack) t = openAfter limit stack t := by
  have hopen : t.kind.isOpener = false := by
    revert h
    cases t.kind <;> simp [Kind.opener?, Kind.isOpener]
  simp only [openAfter, hopen, h, Bool.false_eq_true, if_false]
  rw [List.dropWhile_cons_of_pos (by simpa using hne)]

/-- An opener that the next token does not close can be forgotten where an alternation stops. -/
theorem faulty_of_stops {limit : Nat} {stack : List Kind} {kind opener close : Kind}
    (hb : Brackets kind opener close) {ts : List Token} (hleaf : ∀ t ∈ ts, IsLeaf t)
    (hstop : Stops ts) (hclose : isAt close ts = false) :
    faulty limit (opener :: stack) (line ts) = faulty limit stack (line ts) := by
  cases hrule : inRule ts with
  | false => rw [(line_eq_nil hrule).1, faulty_nil, faulty_nil]
  | true =>
    obtain ⟨t, us, hus, hplain, hid, hparen, hbracket, hc, hl, hat⟩ := comments_of_stops hstop hrule
    have ht : IsLeaf t := hleaf t (mem_of_mem_read (r := comments) (by rw [hus]; exact List.mem_cons_self))
    rw [← line_comments, hus, line_cons hc hl]
    rcases wrong_or_closer ht hplain hid hparen hbracket hc with hwrong | ⟨other, hother⟩
    · rw [faulty_of_wrong hwrong, faulty_of_wrong hwrong]
    · have hne : opener ≠ other := by
        rintro rfl
        rw [hat, beq_eq_false_iff_ne] at hclose
        revert hother hclose
        cases hb <;> cases t.kind <;> simp [Kind.opener?]
      have hsame := openAfter_other limit stack hother hne
      cases hafter : openAfter limit stack t with
      | none => rw [faulty_of_none (hsame.trans hafter), faulty_of_none hafter]
      | some stack' =>
        have hrest : t.kind ≠ .unknown ∧ t.kind.isDefiner = false := by
          revert hother
          cases t.kind <;> simp [Kind.opener?, Kind.isDefiner]
        rw [faulty_of_some (hsame.trans hafter) hrest.1 hrest.2,
          faulty_of_some hafter hrest.1 hrest.2]

/-- What an optional closer does to the check, after the alternation that it ends. -/
theorem faulty_ifAt (limit : Nat) (stack : List Kind) {kind opener close : Kind}
    (hb : Brackets kind opener close) {ts : List Token} (hleaf : ∀ t ∈ ts, IsLeaf t)
    (hstop : Stops ts) :
    Tree.anyError ((ifAt close).read ts).1 = false ∧
      faulty limit (opener :: stack) (line ts) =
        faulty limit stack (line ((ifAt close).read ts).2) := by
  cases h : isAt close ts with
  | false =>
    rw [ifAt, choose_neg h]
    exact ⟨rfl, faulty_of_stops hb hleaf hstop h⟩
  | true =>
    obtain ⟨t, us, hus, hkind, hl, hc⟩ := comments_of_isAt h
    have hnot : t.kind ≠ .error ∧ t.kind ≠ .unknown ∧ t.kind.isDefiner = false := by
      rw [hkind]
      cases hb <;> decide
    have hafter : openAfter limit (opener :: stack) t = some stack := by
      rw [openAfter, hkind]
      cases hb <;> rfl
    rw [ifAt, choose_pos h, token_read hus, Tree.anyError_append, anyError_comments, Tree.anyError_cons,
      Tree.hasError_leaf hnot.1 hnot.2.1, ← line_comments ts, hus, line_cons hc hl]
    exact ⟨rfl, faulty_of_some hafter hnot.2.1 hnot.2.2⟩

/-- Inside a rule, the check goes on where the readers do: it fails iff the trees that were read hold
an error or it fails on what is left. -/
theorem kept_faulty (limit : Nat) : Kept limit fun n ts trees us =>
    (∀ t ∈ ts, IsLeaf t) → (∀ t ∈ us, IsLeaf t) ∧ ∀ stack : List Kind, stack.length + n = limit →
      faulty limit stack (line ts) = (Tree.anyError trees || faulty limit stack (line us)) where
  refl := fun n ts hts => ⟨hts, fun stack _ => rfl⟩
  append := by
    intro n ts us vs trees trees' h h' hts
    obtain ⟨hus, h⟩ := h hts
    obtain ⟨hvs, h'⟩ := h' hus
    refine ⟨hvs, fun stack hstack => ?_⟩
    rw [h stack hstack, h' stack hstack, Tree.anyError_append, Bool.or_assoc]
  skip := by
    intro n ts hts
    refine ⟨fun t ht => hts t (mem_of_mem_read ht), fun stack _ => ?_⟩
    rw [anyError_comments, line_comments]
    rfl
  name := by
    intro n t us hkind hl hts
    refine ⟨fun u hu => hts u (List.mem_cons_of_mem _ hu), fun stack _ => ?_⟩
    rw [line_cons (by simp [Token.isComment, hkind]) hl, Tree.anyError_cons,
      Tree.hasError_nameNode hkind]
    exact faulty_of_other (by rw [hkind]; rfl) (by rw [hkind]; rfl) (by simp [hkind])
      (by rw [hkind]; rfl)
  plain := by
    intro n t us hkind hl hts
    refine ⟨fun u hu => hts u (List.mem_cons_of_mem _ hu), fun stack _ => ?_⟩
    have hnot : t.isComment = false ∧ t.kind ≠ .error ∧ t.kind ≠ .unknown ∧
        t.kind.isOpener = false ∧ t.kind.opener? = none ∧ t.kind.isDefiner = false := by
      rw [Token.isComment]
      revert hkind
      cases t.kind <;> simp [isPlain, Kind.isOpener, Kind.opener?, Kind.isDefiner]
    obtain ⟨hc, herror, hunknown, hopen, hclose, hdef⟩ := hnot
    rw [line_cons hc hl, Tree.anyError_cons, Tree.hasError_leaf herror hunknown]
    exact faulty_of_other hopen hclose hunknown hdef
  wrap := by
    intro n kind ts us trees hkind hne h hts
    obtain ⟨hus, h⟩ := h hts
    refine ⟨hus, fun stack hstack => ?_⟩
    have hnot : kind ≠ .error ∧ kind ≠ .unknown := by
      constructor <;> rintro rfl <;> exact absurd hkind (by decide)
    rw [h stack hstack, Tree.anyError_cons, Tree.hasError_branch hnot.1 hnot.2, Tree.anyError_nil,
      Bool.or_false]
  bracket := by
    intro n kind opener close t us trees vs hb hkind hl h hstop hts
    obtain ⟨hvs, h⟩ := h fun u hu => hts u (List.mem_cons_of_mem _ hu)
    refine ⟨fun u hu => hvs u (mem_of_mem_read hu), fun stack hstack => ?_⟩
    have hopener : t.isComment = false ∧ t.kind ≠ .error ∧ t.kind ≠ .unknown ∧
        t.kind.isDefiner = false ∧ kind ≠ .error ∧ kind ≠ .unknown := by
      rw [Token.isComment, hkind]
      cases hb <;> decide
    obtain ⟨hc, herror, hunknown, hdef, hkerror, hkunknown⟩ := hopener
    have hafter : openAfter limit stack t = some (opener :: stack) := by
      rw [openAfter, hkind, if_pos (by cases hb <;> rfl), if_pos (by omega)]
    obtain ⟨hclean, hclose⟩ := faulty_ifAt limit stack hb hvs hstop
    rw [line_cons hc hl, faulty_of_some hafter hunknown hdef,
      h (opener :: stack) (by simp only [List.length_cons]; omega), hclose, Tree.anyError_cons,
      Tree.hasError_branch hkerror hkunknown, Tree.anyError_cons, Tree.hasError_leaf herror hunknown,
      Tree.anyError_append, hclean, Tree.anyError_nil]
    simp
  atLimit := by
    intro kind opener close t us hb hkind hl hts
    refine ⟨fun u hu => hts u (List.mem_cons_of_mem _ hu), fun stack hstack => ?_⟩
    have hc : t.isComment = false := by
      rw [Token.isComment, hkind]
      cases hb <;> decide
    have hafter : openAfter limit stack t = none := by
      rw [openAfter, hkind, if_pos (by cases hb <;> rfl), if_neg (by omega)]
    rw [line_cons hc hl, faulty_of_none hafter]
    rfl
  stray := by
    intro t us hplain hid hparen hbracket hc hl hts
    refine ⟨fun u hu => hts u (List.mem_cons_of_mem _ hu), fun stack hstack => ?_⟩
    -- all levels are left, so no bracket is open
    have hnil : stack = [] := List.length_eq_zero_iff.mp (by omega)
    subst hnil
    have hfaulty : faulty limit [] (t :: line us) = true := by
      rcases wrong_or_closer (hts t List.mem_cons_self) hplain hid hparen hbracket hc with
        hwrong | ⟨opener, hopener⟩
      · exact faulty_of_wrong hwrong
      · refine faulty_of_none ?_
        have hopen : t.kind.isOpener = false := by
          revert hopener
          cases t.kind <;> simp [Kind.opener?, Kind.isOpener]
        simp [openAfter, hopen, hopener]
    rw [line_cons hc hl, hfaulty]
    rfl

/-! ### Entries -/

/-- The head of a rule and what follows it have no errors of their own. -/
theorem anyError_afterName (ts : List Token) : Tree.anyError (afterName.read ts).1 = false := by
  refine Tree.anyError_eq_false fun x hx => ?_
  rcases mem_afterName hx with ⟨t, rfl, ht⟩ | ⟨t, rfl, hkind, -⟩
  · have hkind := Token.kind_of_isComment ht
    exact Tree.hasError_leaf (by simp [hkind]) (by simp [hkind])
  · have hleaf : (Tree.leaf t).hasError = false := by
      rcases hkind with hkind | hkind <;> exact Tree.hasError_leaf (by simp [hkind]) (by simp [hkind])
    rw [Tree.hasError_branch (by decide) (by decide), Tree.anyError_cons, hleaf]
    rfl

/-- The elements of a rule hold an error iff the check fails on them. -/
theorem anyError_elements (limit : Nat) {ts : List Token} (hts : ∀ t ∈ ts, IsLeaf t) :
    Tree.anyError ((elements limit).read ts).1 = faulty limit [] (line ts) := by
  have hfaulty := ((kept_faulty limit).elements ts hts).2 [] (Nat.zero_add limit)
  rw [(line_eq_nil (elements_rest limit ts).1).1, faulty_nil, Bool.or_false] at hfaulty
  exact hfaulty.symm

/-- Directly after the head of a rule, a sign of definition is no fault. -/
theorem runFaulty_head (limit : Nat) {t : Token} (ht : t.isHead = true) (us : List Token) :
    runFaulty limit (t :: line us) = faulty limit [] (line (afterName.read us).2) := by
  have hkind := Token.kind_of_isHead ht
  have hstep : openAfter limit [] t = some [] := by
    rw [openAfter, hkind]
    rfl
  have hrun : runFaulty limit (t :: line us) =
      ((line us).any (·.kind == .unknown) || (line us).tail.any (·.kind.isDefiner) ||
        ((line us).foldlM (openAfter limit) []).isNone) := by
    rw [runFaulty, List.foldlM_cons, hstep, List.eraseIdx_cons_succ, List.any_cons, List.any_cons,
      hkind, List.head?_cons, Option.any_some, ht]
    cases line us <;> rfl
  rw [hrun, afterName, seq_read, line_comments, ← line_comments us]
  cases hdef : isAtDefinedAs us with
  | true =>
    obtain ⟨d, vs, hvs, hd, hl, hc⟩ := comments_of_isAtDefinedAs hdef
    rw [choose_pos hdef, node_read, hvs, token_read_cons hc, line_cons hc hl]
    have hdstep : openAfter limit [] d = some [] := by
      rw [openAfter]
      rcases hd with hd | hd <;> rw [hd] <;> rfl
    have hdunknown : (d.kind == .unknown) = false := by
      rcases hd with hd | hd <;> rw [hd] <;> rfl
    rw [faulty, List.any_cons, hdunknown, List.foldlM_cons, hdstep]
    rfl
  | false =>
    rw [choose_neg hdef]
    show _ = faulty limit [] (line us)
    rw [line_comments, faulty]
    cases hrule : inRule us with
    | false =>
      rw [(line_eq_nil hrule).1]
      rfl
    | true =>
      obtain ⟨d, vs, hvs, hl, hc, hat⟩ := comments_of_inRule hrule
      rw [← line_comments us, hvs, line_cons hc hl]
      have hdef' : d.kind.isDefiner = false := by
        simp only [isAtDefinedAs, hat, Bool.or_eq_false_iff, beq_eq_false_iff_ne] at hdef
        revert hdef
        cases d.kind <;> simp [Kind.isDefiner]
      rw [List.tail_cons, List.any_cons (f := fun t : Token => t.kind.isDefiner), hdef',
        Bool.false_or]

/-- The entry for a run holds an error iff the run does not fit. -/
theorem anyError_entry (limit : Nat) {ts us : List Token} {t : Token}
    (hus : (comments.read ts).2 = t :: us) (hc : t.isComment = false) (hts : ∀ u ∈ ts, IsLeaf u) :
    Tree.anyError ((entry limit).read ts).1 = runFaulty limit (t :: line us) := by
  have hleaf : ∀ u ∈ us, IsLeaf u := by
    intro u hu
    refine hts u (mem_of_mem_read (r := comments) ?_)
    rw [hus]
    exact List.mem_cons_of_mem _ hu
  rw [entry, seq_read, Tree.anyError_append, anyError_comments, Bool.false_or, hus]
  cases hhead : t.isHead with
  | true =>
    have hkind := Token.kind_of_isHead hhead
    rw [choose_pos (by rw [isAtRule_cons hc, hhead]), rule_read limit hc, Tree.anyError_cons,
      Tree.hasError_branch (by decide) (by decide), Tree.anyError_cons, Tree.hasError_nameNode hkind,
      Tree.anyError_append, anyError_afterName, Tree.anyError_cons, Tree.anyError_nil,
      runFaulty_head limit hhead,
      ← anyError_elements limit fun u hu => hleaf u (mem_of_mem_read hu)]
    simp [elementsNode, Tree.hasError]
  | false =>
    have hjunk : Tree.anyError (junk.read (t :: us)).1 = true := by
      rw [junk, node_read, comments_cons hc]
      rfl
    rw [choose_neg (by rw [isAtRule_cons hc, hhead]), hjunk, runFaulty, List.head?_cons,
      Option.any_some, hhead]
    rfl

/-- A grammar holds an error iff one of its runs does not fit. -/
theorem anyError_ruleList (limit : Nat) {ts : List Token} (hts : ∀ t ∈ ts, IsLeaf t) :
    Tree.anyError ((ruleList limit).read ts).1 =
      (Token.runs (Token.withoutComments ts)).any (runFaulty limit) := by
  rw [ruleList, seq_read, Tree.anyError_append, anyError_comments, Bool.or_false]
  show Tree.anyError (readParts _ _ _ ts).1.flatten = _
  fun_induction readParts hasNext (entry limit) (entry_consumes limit) ts with
  | case1 ts hp more ih =>
    obtain ⟨t, hnext⟩ := Option.isSome_iff_exists.mp hp
    obtain ⟨us, hus⟩ := comments_of_next? hnext
    have hc := isComment_of_next? hnext
    rw [List.flatten_cons, Tree.anyError_append, anyError_entry limit hus hc hts,
      runs_of_next limit hus hc, List.any_cons, ih fun u hu => hts u (mem_of_mem_read hu)]
  | case2 ts hp =>
    rw [runs_of_hasNext (by simpa using hp)]
    rfl

end Grammar

theorem isLeaf_of_mem_significant {source : Text} {t : Token} (h : t ∈ Token.significant source) :
    Grammar.IsLeaf t :=
  ⟨Token.lexical_of_mem_significant h, (List.mem_filter.mp h).2⟩

/-- A run that does not fit, in words. -/
theorem runFaulty_iff (limit : Nat) (run : List Token) :
    runFaulty limit run = true ↔
      (∃ t ∈ run, t.kind = .unknown) ∨
        (¬∃ t, run.head? = some t ∧ t.kind = .identifier ∧ t.atLineStart = true) ∨
        (∃ i t, run[i]? = some t ∧ i ≠ 1 ∧ (t.kind = .equals ∨ t.kind = .incrementalEquals)) ∨
        run.foldlM (openAfter limit) [] = none := by
  have hhead : (!run.head?.any Token.isHead) = true ↔
      ¬∃ t, run.head? = some t ∧ t.kind = .identifier ∧ t.atLineStart = true := by
    rw [Bool.not_eq_true', ← Bool.not_eq_true, Option.any_eq_true]
    simp only [Token.isHead, Bool.and_eq_true, beq_iff_eq]
  have hdefiner : ∀ k : Kind, k.isDefiner = true ↔ k = .equals ∨ k = .incrementalEquals := by
    intro k
    cases k <;> simp [Kind.isDefiner]
  have hdef : (run.eraseIdx 1).any (·.kind.isDefiner) = true ↔
      ∃ i t, run[i]? = some t ∧ i ≠ 1 ∧ (t.kind = .equals ∨ t.kind = .incrementalEquals) := by
    rw [List.any_eq_true]
    constructor
    · rintro ⟨t, ht, hk⟩
      obtain ⟨i, hi, hget⟩ := List.mem_eraseIdx_iff_getElem?.mp ht
      exact ⟨i, t, hget, hi, (hdefiner t.kind).mp hk⟩
    · rintro ⟨i, t, hget, hi, hk⟩
      exact ⟨t, List.mem_eraseIdx_iff_getElem?.mpr ⟨i, hi, hget⟩, (hdefiner t.kind).mpr hk⟩
  rw [runFaulty, Bool.or_eq_true, Bool.or_eq_true, Bool.or_eq_true, hhead, hdef, List.any_eq_true,
    Option.isNone_iff_eq_none]
  simp only [beq_iff_eq]
  constructor
  · rintro (((h | h) | h) | h)
    · exact Or.inr (Or.inl h)
    · exact Or.inl h
    · exact Or.inr (Or.inr (Or.inl h))
    · exact Or.inr (Or.inr (Or.inr h))
  · rintro (h | h | h | h)
    · exact Or.inl (Or.inl (Or.inr h))
    · exact Or.inl (Or.inl (Or.inl h))
    · exact Or.inl (Or.inr h)
    · exact Or.inr h

/-- The tree of a text holds an error iff one pass over the tokens other than comments finds a fault.
The tokens are cut into runs before each token that starts a line.  It is a fault if a token is
unknown, if a run does not start with a name in the first column, if a run has a sign of definition
anywhere but directly after its first token, or if the brackets of a run do not fit. -/
theorem hasError_iff (limit : Nat) (source : Text) :
    let tokens := (Token.scan source).filter fun t => t.isSignificant && !t.isComment
    (parse limit source).root.hasError = true ↔
      (∃ t ∈ tokens, t.kind = .unknown) ∨
        ∃ run ∈ Token.runs tokens,
          (¬∃ t, run.head? = some t ∧ t.kind = .identifier ∧ t.atLineStart = true) ∨
            (∃ i t, run[i]? = some t ∧ i ≠ 1 ∧ (t.kind = .equals ∨ t.kind = .incrementalEquals)) ∨
            run.foldlM (openAfter limit) [] = none := by
  intro tokens
  have htokens : tokens = Token.withoutComments (Token.significant source) := by
    rw [Token.withoutComments, Token.significant, List.filter_filter]
    exact List.filter_congr fun t _ => Bool.and_comm _ _
  have hroot : (parse limit source).root.hasError = (Token.runs tokens).any (runFaulty limit) := by
    rw [htokens, ← Grammar.anyError_ruleList limit fun t ht => isLeaf_of_mem_significant ht]
    rfl
  rw [hroot, List.any_eq_true]
  constructor
  · rintro ⟨run, hrun, hfaulty⟩
    rcases (runFaulty_iff limit run).mp hfaulty with ⟨t, ht, hk⟩ | h
    · refine Or.inl ⟨t, ?_, hk⟩
      rw [← Token.flatten_runs tokens]
      exact List.mem_flatten.mpr ⟨run, hrun, ht⟩
    · exact Or.inr ⟨run, hrun, h⟩
  · rintro (⟨t, ht, hk⟩ | ⟨run, hrun, h⟩)
    · rw [← Token.flatten_runs tokens] at ht
      obtain ⟨run, hrun, ht⟩ := List.mem_flatten.mp ht
      exact ⟨run, hrun, (runFaulty_iff limit run).mpr (Or.inl ⟨t, ht, hk⟩)⟩
    · exact ⟨run, hrun, (runFaulty_iff limit run).mpr (Or.inr h)⟩

-- no closers, an empty alternative, a repeat without an element and a rule without a body
example : (parse 2 "a = ([b / / 3\nb".toList).root.hasError = false := by decide +kernel

-- a closer past an option that is left open, and one that finds no opener
example : (parse 2 "a = ([b)".toList).root.hasError = false := by decide +kernel

example : (parse 2 "a = ([b)]".toList).root.hasError = true := by decide +kernel

end Abnf
