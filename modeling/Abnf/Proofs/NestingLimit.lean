/-
The nesting limit shows only where it is reached.

An opener that is nested deeper than the limit becomes an error; nothing else depends on the limit.  So two
limits give one and the same tree iff, in the tree for the greater limit, no path has more groups and
options than the smaller limit allows (`parse_eq_iff_not_reached`).

The two limits are followed side by side through the grammar.  What they are compared on is not the text but
what the greater limit makes of it: `Reader.ReadsAs P r s` says that `r` reads as `s` does wherever all trees
that `s` makes have the property `P`.  Here `P` is `Tree.Shallow n`, and a bracket takes one level off `n`
for what it encloses (`Grammar.reads_bracketed`), also where it is left open.
-/
import Abnf.Proofs.Depth

namespace Abnf

/-! ### Shallow trees -/

namespace Tree

/-- Whether no path of a tree has more than `n` groups and options. -/
def Shallow (n : Nat) (x : Tree) : Prop := ∃ h, Low n h x

namespace Shallow

variable {n : Nat} {kind : Kind} {span : Span} {ts : List Tree}

theorem child (h : Shallow n (node kind span ts)) (hkind : kind.isBracketed = false) :
    ∀ x ∈ ts, Shallow n x := by
  obtain ⟨height, hlow⟩ := h
  intro x hx
  cases hlow with
  | node _ hts => exact ⟨_, hts x hx⟩
  | bracketed hbracketed _ => exact absurd (hkind.symm.trans hbracketed) Bool.false_ne_true

/-- Brackets use a level, so that there is one. -/
theorem enclosed (h : Shallow n (node kind span ts)) (hkind : kind.isBracketed = true) :
    ∃ m, n = m + 1 ∧ ∀ x ∈ ts, Shallow m x := by
  obtain ⟨height, hlow⟩ := h
  cases hlow with
  | node hplain _ => exact absurd (hplain.symm.trans hkind) Bool.false_ne_true
  | bracketed _ hts => exact ⟨_, rfl, fun x hx => ⟨_, hts x hx⟩⟩

end Shallow

/-- The groups and options on the paths of a tree can be counted at its sites. -/
theorem low_of_paths {n h m : Nat} {x : Tree} (hx : x.Low n h) (id : Nat)
    (ancestors : List (Nat × Tree))
    (hpaths : ∀ s ∈ Site.preorder id ancestors x,
      s.path.countP (·.kind.isBracketed) ≤ ancestors.countP (·.2.kind.isBracketed) + m) :
    x.Low m h := by
  induction hx generalizing m id ancestors with
  | leaf => exact .leaf
  | @node n h kind span ts hkind hts ih =>
    refine .node hkind fun t ht => ?_
    obtain ⟨id', hsub⟩ := Site.exists_preorder_subset ht (id + 1) ((id, node kind span ts) :: ancestors)
    refine ih t ht id' ((id, node kind span ts) :: ancestors) fun s hs => ?_
    rw [List.countP_cons_of_neg (by simp [Tree.kind, hkind])]
    exact hpaths s (List.mem_cons_of_mem _ (hsub s hs))
  | @bracketed n h kind span ts hkind hts ih =>
    -- the path to the brackets themselves shows that a level is left for them
    have hhere := hpaths ⟨id, node kind span ts, ancestors⟩ List.mem_cons_self
    have hlevel : ancestors.countP (·.2.kind.isBracketed) + 1 ≤
        ancestors.countP (·.2.kind.isBracketed) + m := by
      rw [Site.countP_path, Tree.kind, if_pos hkind] at hhere
      exact hhere
    obtain ⟨k, rfl⟩ : ∃ k, m = k + 1 := ⟨m - 1, by omega⟩
    refine .bracketed hkind fun t ht => ?_
    obtain ⟨id', hsub⟩ := Site.exists_preorder_subset ht (id + 1) ((id, node kind span ts) :: ancestors)
    refine ih t ht id' ((id, node kind span ts) :: ancestors) fun s hs => ?_
    have hpath := hpaths s (List.mem_cons_of_mem _ (hsub s hs))
    rw [List.countP_cons_of_pos (by exact hkind)]
    omega

end Tree

/-! ### Readers that read alike -/

namespace Reader

/-- Whether `r` reads as `s` does, wherever all trees that `s` makes have a property. -/
def ReadsAs (P : Tree → Prop) (r s : Reader) : Prop :=
  ∀ ts, (∀ x ∈ (s.read ts).1, P x) → r.read ts = s.read ts

namespace ReadsAs

variable {P Q : Tree → Prop} {r s r' s' : Reader} {p : List Token → Bool}

theorem refl (r : Reader) : ReadsAs P r r := fun _ _ => rfl

theorem seq (hr : ReadsAs P r r') (hs : ReadsAs P s s') :
    ReadsAs P (Reader.seq r s) (Reader.seq r' s') := by
  intro ts h
  rw [seq_read] at h
  have hfirst := hr ts fun x hx => h x (List.mem_append_left _ hx)
  have hsecond := hs (r'.read ts).2 fun x hx => h x (List.mem_append_right _ hx)
  rw [seq_read, seq_read, hfirst, hsecond]

theorem choose (hr : ReadsAs P r r') (hs : ReadsAs P s s') :
    ReadsAs P (Reader.choose p r s) (Reader.choose p r' s') := by
  intro ts h
  cases hp : p ts with
  | true =>
    rw [choose_pos hp] at h ⊢
    rw [choose_pos hp, hr ts h]
  | false =>
    rw [choose_neg hp] at h ⊢
    rw [choose_neg hp, hs ts h]

theorem node {kind : Kind} (hr : ReadsAs Q r r')
    (h : ∀ trees, P (.branch kind trees) → ∀ x ∈ trees, Q x) :
    ReadsAs P (Reader.node kind r) (Reader.node kind r') := by
  intro ts hP
  rw [node_read] at hP
  have hbranch := hP _ (List.mem_append_right _ (List.mem_singleton.mpr rfl))
  rw [node_read, node_read, hr _ (h _ hbranch)]

/-- A loop is read alike if each of its rounds is. -/
theorem readParts (hr : ReadsAs P r r') {c : Consumes p r} {c' : Consumes p r'} {ts : List Token}
    (h : ∀ x ∈ (readParts p r' c' ts).1.flatten, P x) :
    Reader.readParts p r c ts = Reader.readParts p r' c' ts := by
  fun_induction Reader.readParts p r' c' ts with
  | case1 ts hp more ih =>
    rw [List.flatten_cons] at h
    have hround := hr ts fun x hx => h x (List.mem_append_left _ hx)
    have hmore := ih fun x hx => h x (List.mem_append_right _ hx)
    rw [readParts_pos hp, hround, hmore]
  | case2 ts hp =>
    have hfalse : p ts = false := by simpa using hp
    exact readParts_neg hfalse

theorem many (hr : ReadsAs P r r') {c : Consumes p r} {c' : Consumes p r'} :
    ReadsAs P (Reader.many p r c) (Reader.many p r' c') := by
  intro ts h
  have hparts : Reader.readParts p r c ts = Reader.readParts p r' c' ts := hr.readParts h
  simp only [Reader.many, hparts]

end ReadsAs

end Reader

/-- Parts are shallow if they are so in the node that they may be wrapped in. -/
theorem Tree.shallow_of_wrapParts {n : Nat} {kind : Kind} (hkind : kind.isBracketed = false)
    {parts : List (List Tree)} (h : ∀ x ∈ Reader.wrapParts kind parts, Shallow n x) :
    ∀ x ∈ parts.flatten, Shallow n x := by
  unfold Reader.wrapParts at h
  split at h
  · exact (h _ (List.mem_singleton.mpr rfl)).child hkind
  · exact h

namespace Grammar

open Reader Abnf.Tree

/-! ### Levels of brackets -/

/-- What two limits have in common for what brackets enclose.  Where no level is asked for, the greater limit
may allow some; else both allow one, and agree on what has one level less. -/
inductive LevelsAgree : Nat → Option (Thunk Reader) → Option (Thunk Reader) → Prop
  | none {body : Option (Thunk Reader)} : LevelsAgree 0 none body
  | some {n : Nat} {r s : Thunk Reader} : ReadsAs (Shallow n) r.get s.get →
      LevelsAgree (n + 1) (some r) (some s)

section

variable {n : Nat} {body body' : Option (Thunk Reader)}

theorem reads_node {kind : Kind} (hkind : kind.isBracketed = false) {r s : Reader}
    (h : ReadsAs (Shallow n) r s) : ReadsAs (Shallow n) (node kind r) (node kind s) :=
  h.node fun _ hbranch => hbranch.child hkind

theorem reads_bracketed {kind opener close : Kind} (hb : Brackets kind opener close)
    (hbody : LevelsAgree n body body') :
    ReadsAs (Shallow n) (bracketed kind close body) (bracketed kind close body') := by
  have hkind : kind.isBracketed = true := by cases hb <;> rfl
  cases hbody with
  | none =>
    cases body' with
    | none => exact .refl _
    | some s =>
      -- brackets that the greater limit allows are a level, and none is asked for
      intro ts h
      have hbranch := h (.branch kind _) (List.mem_append_right _ (List.mem_singleton.mpr rfl))
      obtain ⟨m, hm, -⟩ := hbranch.enclosed hkind
      exact absurd hm (Nat.succ_ne_zero m).symm
  | @some n r s hrs =>
    have henclosed : ReadsAs (Shallow n) (seq token (seq (delayed r) (ifAt close)))
        (seq token (seq (delayed s) (ifAt close))) :=
      (ReadsAs.refl token).seq (ReadsAs.seq hrs (.refl _))
    refine henclosed.node fun trees hbranch => ?_
    obtain ⟨m, hm, htrees⟩ := hbranch.enclosed hkind
    rw [Nat.succ.inj hm]
    exact htrees

theorem reads_element (hbody : LevelsAgree n body body') :
    ReadsAs (Shallow n) (element body) (element body') :=
  (ReadsAs.refl name).choose <| (reads_bracketed .group hbody).choose <|
    (reads_bracketed .option hbody).choose (.refl _)

theorem reads_repetition (hbody : LevelsAgree n body body') :
    ReadsAs (Shallow n) (repetition body) (repetition body') := by
  have helement := reads_element hbody
  exact (reads_node rfl ((ReadsAs.refl repeatCount).seq helement)).choose helement

theorem reads_concatenation (hbody : LevelsAgree n body body') :
    ReadsAs (Shallow n) (concatenation body) (concatenation body') := by
  refine (ReadsAs.refl comments).seq fun ts h => ?_
  -- whether the parts are wrapped is decided by their number, which is the same
  have hparts : readParts isAtRepetition (repetition body) (repetition_consumes body) ts =
      readParts isAtRepetition (repetition body') (repetition_consumes body') ts :=
    (reads_repetition hbody).readParts (shallow_of_wrapParts rfl h)
  simp only [wrapped, hparts]

theorem reads_alternationOver (hbody : LevelsAgree n body body') :
    ReadsAs (Shallow n) (alternationOver body) (alternationOver body') := by
  have hitem := reads_concatenation hbody
  refine (ReadsAs.refl comments).seq fun ts h => ?_
  have hall := shallow_of_wrapParts rfl h
  rw [List.flatten_cons] at hall
  have hfirst := hitem ts fun x hx => hall x (List.mem_append_left _ hx)
  have hmore := ((ReadsAs.refl token).seq hitem).readParts (c := slash_consumes _)
    fun x hx => hall x (List.mem_append_right _ hx)
  simp only [wrappedAfter, hfirst, hmore]

end

/-- The limits go down together, one level with each bracket, and the smaller one is used up first. -/
theorem reads_alternation {n n' : Nat} (h : n ≤ n') :
    ReadsAs (Shallow n) (alternation n) (alternation n') := by
  induction n generalizing n' with
  | zero =>
    cases n' with
    | zero => exact .refl _
    | succ n' => exact reads_alternationOver .none
  | succ n ih =>
    obtain ⟨m, rfl⟩ : ∃ m, n' = m + 1 := ⟨n' - 1, by omega⟩
    have hbody : LevelsAgree (n + 1) (some (Thunk.mk fun _ => alternation n))
        (some (Thunk.mk fun _ => alternation m)) := .some (ih (Nat.le_of_succ_le_succ h))
    exact reads_alternationOver hbody

/-! ### Rules and other lines -/

section

variable {limit limit' : Nat} (h : limit ≤ limit')
include h

theorem reads_elements : ReadsAs (Shallow limit) (elements limit) (elements limit') :=
  (reads_alternation h).seq
    ((ReadsAs.refl (node .error token)).seq (reads_alternation h)).many

theorem reads_rule : ReadsAs (Shallow limit) (rule limit) (rule limit') := by
  intro ts hshallow
  have hchildren := (hshallow _ (List.mem_singleton.mpr rfl)).child rfl
  have hbody := (hchildren _ (List.mem_append_right _ (List.mem_singleton.mpr rfl))).child rfl
  simp only [rule, reads_elements h _ hbody]

theorem reads_ruleList : ReadsAs (Shallow limit) (ruleList limit) (ruleList limit') := by
  have hentry : ReadsAs (Shallow limit) (entry limit) (entry limit') :=
    (ReadsAs.refl comments).seq ((reads_rule h).choose (.refl junk))
  exact hentry.many.seq (.refl comments)

end

end Grammar

/-- The limit is invisible where it is not reached.  Take two limits.  They give the same tree, with the same
nodes, kinds, spans and places, iff no path of the tree for the greater limit has more groups and options than
the smaller limit. -/
theorem parse_eq_iff_not_reached (limit limit' : Nat) (h : limit ≤ limit') (source : Text) :
    parse limit source = parse limit' source ↔
      ∀ s ∈ (parse limit' source).sites, s.path.countP (·.kind.isBracketed) ≤ limit := by
  constructor
  · intro hsame s hs
    rw [← hsame] at hs
    exact Site.countP_path_le hs
  · intro hpaths
    have hlow : (parse limit' source).root.Low limit (4 * limit' + 7) := by
      refine Tree.low_of_paths (low_root limit' source) 0 [] fun s hs => ?_
      rw [List.countP_nil, Nat.zero_add]
      exact hpaths s hs
    have htrees := Tree.Shallow.child ⟨_, hlow⟩ rfl
    rw [parse, parse, Grammar.reads_ruleList h _ htrees]

/-- An option in a group that is left open: two levels are enough, and one is not. -/
theorem parse_eq_iff_not_reached_left_open :
    let source : Text := "a = (b [c]\n  d\n".toList
    (∀ s ∈ (parse 128 source).sites, s.path.countP (·.kind.isBracketed) ≤ 2) ∧
      parse 2 source = parse 128 source ∧ parse 1 source ≠ parse 128 source := by
  intro source
  have hpaths : ∀ s ∈ (parse 128 source).sites, s.path.countP (·.kind.isBracketed) ≤ 2 := by
    decide +kernel
  have hdeep : ¬∀ s ∈ (parse 128 source).sites, s.path.countP (·.kind.isBracketed) ≤ 1 := by
    decide +kernel
  exact ⟨hpaths, (parse_eq_iff_not_reached 2 128 (by decide) source).mpr hpaths,
    fun hsame => hdeep ((parse_eq_iff_not_reached 1 128 (by decide) source).mp hsame)⟩

end Abnf
