/-
Renaming a rule changes nothing but its name.

The edits of a renaming replace the names of a text that have the key of the rule, all of them and
nothing else (`Index.exists_of_rename`).  Carrying them out spells these names in another way
(`TextEdit.applyAll_scanFrom`), so the tokens of the new text are those of the old one but for these
names, and so are the trees: they have one shape, and the leaves hold what they held before
(`rename_keeps_structure`).

A text with errors is left out: in `%a`, where the percent sign starts nothing, the name `x1` in the
place of `a` would make a numeric value.
-/
import Abnf.Feature.Rename
import Abnf.Proofs.Occurrence
import Abnf.Proofs.Respelling

namespace Abnf

/-! ### Carrying out edits -/

namespace TextEdit

/-- A text with the new text of an edit in the place of what its span covers. -/
def apply (e : TextEdit) (text : Text) : Text :=
  text.takeBytes e.span.start ++ (e.newText.toList ++ text.dropBytes e.span.stop)

/-- A text after edits, which are in the order of the text.  The last one is carried out first, so
that the spans of the others stay where they are. -/
def applyAll (edits : List TextEdit) (text : Text) : Text := edits.foldr apply text

/-- An edit of a piece of text. -/
theorem apply_append (before old after : Text) (new : String) :
    apply ⟨⟨before.byteLength, before.byteLength + old.byteLength⟩, new⟩ (before ++ (old ++ after)) =
      before ++ (new.toList ++ after) := by
  have hdrop := Text.dropBytes_append (before ++ old) after
  rw [Text.byteLength_append, List.append_assoc] at hdrop
  rw [apply, Text.takeBytes_append, hdrop]

end TextEdit

namespace Token

/-- Whether a token is a name for the rule of a name. -/
def isNamed (name : String) (t : Token) : Bool :=
  t.kind == .identifier && RuleName.key t.name == RuleName.key name

/-- The text of a token after a rule was renamed. -/
def renamed (name newName : String) (t : Token) : Text :=
  if t.isNamed name then newName.toList else t.text

end Token

/-- Edits of all tokens for the rule of a name are a new spelling of these tokens. -/
theorem TextEdit.applyAll_scanFrom (name newName : String) (start : Nat) (atLineStart : Bool)
    (text : Text) : ∀ before : Text, start = before.byteLength →
      applyAll (((Token.scanFrom start atLineStart text).filter (Token.isNamed name)).map
          fun t => ⟨t.span, newName⟩) (before ++ text) =
        before ++ (Token.scanFrom start atLineStart text).flatMap (Token.renamed name newName) := by
  fun_induction Token.scanFrom start atLineStart text with
  | case1 start atLineStart =>
    intro before _
    rfl
  | case2 start atLineStart c cs token ih =>
    intro before hstart
    have htext : token.text ++ cs.drop (Token.lexeme c cs).2 = c :: cs :=
      Token.first_text_append start atLineStart c cs
    have hstop : token.span.stop = (before ++ token.text).byteLength := by
      rw [Text.byteLength_append, ← hstart]
      rfl
    have hrest := ih (before ++ token.text) hstop
    rw [List.append_assoc, htext, List.append_assoc] at hrest
    cases hnamed : token.isNamed name with
    | true =>
      -- the edits further on come first, and leave this token where it is
      have hspan : token.span =
          ⟨before.byteLength, before.byteLength + token.text.byteLength⟩ := by
        rw [← hstart]
        rfl
      rw [List.filter_cons_of_pos hnamed, List.map_cons, List.flatMap_cons, Token.renamed,
        if_pos hnamed]
      show apply _ (applyAll _ (before ++ c :: cs)) = _
      rw [hrest]
      exact (congrArg (fun span => apply ⟨span, newName⟩ _) hspan).trans (apply_append _ _ _ _)
    | false =>
      have hnot : ¬token.isNamed name = true := by simp [hnamed]
      rw [List.filter_cons_of_neg hnot, List.flatMap_cons, Token.renamed, if_neg hnot, hrest]

/-! ### What is renamed -/

namespace Span

/-- The order of spans puts a list into one order only. -/
theorem mergeSort_eq {spans sorted : List Span} (hperm : spans.Perm sorted)
    (hsorted : sorted.Pairwise fun s t => s.le t = true) : spans.mergeSort le = sorted := by
  have htrans : ∀ s t u : Span, s.le t = true → t.le u = true → s.le u = true := by
    intro s t u
    simp only [le_iff]
    omega
  have htotal : ∀ s t : Span, (s.le t || t.le s) = true := by
    intro s t
    rw [Bool.or_eq_true, le_iff, le_iff]
    omega
  refine ((List.mergeSort_perm spans le).trans hperm).eq_of_pairwise ?_
    (List.pairwise_mergeSort htrans htotal spans) hsorted
  intro s t _ _ hst hts
  rw [le_iff] at hst hts
  cases s
  cases t
  simp only [Span.mk.injEq] at hst hts ⊢
  omega

end Span

/-- Names with one key are names of one core rule or of none. -/
theorem CoreRule.isName_congr {a b : String} (h : RuleName.key a = RuleName.key b) :
    isName a = isName b := by
  rw [isName, find?, h, isName, find?]

/-- A name that may be given to a rule. -/
theorem RuleName.of_check {name : String} (h : check name = .ok ()) :
    (∃ c w, name.toList = c :: w ∧ c.isAlpha = true ∧ w.all Token.isNameChar = true) ∧
      CoreRule.isName name = false := by
  revert h
  fun_cases check name with
  | case1 => simp
  | case2 => simp
  | case3 => simp
  | case4 c cs htext hletter hfind hcore =>
    intro _
    refine ⟨⟨c, cs, htext, hletter, ?_⟩, by simpa using hcore⟩
    rw [List.find?_eq_none] at hfind
    exact List.all_eq_true.mpr fun d hd => by simpa using hfind d hd
  | case5 => simp

namespace Index

section

variable (document : String) (limit : Nat) (source : Text)

/-- The definitions of a name are the names in the first column that have its key, unless it is the
name of a core rule. -/
theorem definitionsOf_spans {name : String} (hcore : CoreRule.isName name = false) :
    ((ofTree document (parse limit source)).definitionsOf name).map (·.head.node.span) =
      ((Token.names source).filter fun t =>
        t.atLineStart && RuleName.key t.name == RuleName.key name).map Token.span := by
  have hfilter := congrArg (List.filter fun label => RuleName.key label.1 == RuleName.key name)
    (map_definitions document limit source)
  rw [List.filter_map, List.filter_map, List.filter_filter] at hfilter
  have hspans := congrArg (List.map Prod.snd) hfilter
  rw [List.map_map, List.map_map] at hspans
  rw [definitionsOf_eq_filter]
  refine hspans.trans (congrArg (List.map Token.span) (List.filter_congr fun t _ => ?_))
  -- a name with this key is not that of a core rule either
  cases hkey : RuleName.key t.name == RuleName.key name with
  | false => simp [hkey]
  | true =>
    have hnot : CoreRule.isName t.name = false := by
      rw [CoreRule.isName_congr (beq_iff_eq.mp hkey), hcore]
    simp [hkey, hnot]

/-- The references to a name are the names elsewhere that have its key. -/
theorem referencesOf_spans (name : String) :
    ((ofTree document (parse limit source)).referencesOf name).map (·.node.span) =
      ((Token.names source).filter fun t =>
        !t.atLineStart && RuleName.key t.name == RuleName.key name).map Token.span := by
  have hget := map_references document limit source (RuleName.key name)
  dsimp only at hget
  rw [referencesOf, Table.itemsOf]
  split at hget
  · rename_i hempty
    rw [Option.map_eq_none_iff] at hget
    rw [hget, List.isEmpty_iff.mp hempty]
    rfl
  · obtain ⟨uses, huses, hlabel⟩ := Option.map_eq_some_iff.mp hget
    have hspans := congrArg (List.map Prod.snd) hlabel
    rw [List.map_map, List.map_map] at hspans
    rw [huses]
    exact hspans

/-- The occurrences of a name that is not that of a core rule are the names that have its key, in the
order of the text. -/
theorem occurrencesOf_eq {name : String} (hcore : CoreRule.isName name = false) :
    (ofTree document (parse limit source)).occurrencesOf name =
      ((Token.scan source).filter (Token.isNamed name)).map Token.span := by
  have hnamed : (Token.scan source).filter (Token.isNamed name) =
      (Token.names source).filter fun t => RuleName.key t.name == RuleName.key name := by
    rw [Token.names, List.filter_filter]
    exact List.filter_congr fun t _ => Bool.and_comm _ _
  have hsplit : ∀ p : Token → Bool, (Token.names source).filter
      (fun t => p t && RuleName.key t.name == RuleName.key name) =
        ((Token.scan source).filter (Token.isNamed name)).filter p := by
    intro p
    rw [hnamed, List.filter_filter]
  rw [occurrencesOf, definitionsOf_spans document limit source hcore,
    referencesOf_spans document limit source, hsplit, hsplit, ← List.map_append]
  refine Span.mergeSort_eq (List.Perm.map _ (List.filter_append_perm _ _)) ?_
  refine List.pairwise_map.mpr (List.Pairwise.filter _ ?_)
  refine (Token.pairwise_scanFrom 0 true source).imp fun {s t} h => ?_
  rw [Span.le_iff]
  exact Or.inl (Nat.lt_of_lt_of_le h.1 h.2)

end

section

variable {document : String} {limit : Nat} {source : Text}

/-- A definition of a name is at a head that has its key and is not the name of a core rule. -/
theorem exists_of_mem_definitionsOf {name : String} {d : Definition}
    (h : d ∈ (ofTree document (parse limit source)).definitionsOf name) :
    d.document = document ∧ RuleName.key d.name = RuleName.key name ∧
      CoreRule.isName d.name = false := by
  rw [definitionsOf_eq_filter] at h
  obtain ⟨hdef, hkey⟩ := List.mem_filter.mp h
  rw [definitions_ofTree] at hdef
  obtain ⟨s, hs, rfl⟩ := List.mem_map.mp hdef
  have hboth := Bool.and_eq_true_iff.mp (List.mem_filter.mp hs).2
  refine ⟨rfl, beq_iff_eq.mp hkey, ?_⟩
  show CoreRule.isName s.name = false
  simpa using hboth.2

/-- Core rules have no definitions. -/
theorem isName_of_definitionOf? {name : String}
    (h : ((ofTree document (parse limit source)).definitionOf? name).isSome = true) :
    CoreRule.isName name = false := by
  obtain ⟨d, hd⟩ := Option.isSome_iff_exists.mp h
  obtain ⟨-, hkey, hcore⟩ := exists_of_mem_definitionsOf (List.mem_of_head? hd)
  rw [← CoreRule.isName_congr hkey, hcore]

theorem rename_of_check {offset : Nat} {newName : String} (h : RuleName.check newName = .ok ())
    (index : Index) : index.rename offset newName = .ok ((index.renameTarget? offset).map
      fun target => (index.occurrencesOf target.name).map (⟨·, newName⟩)) := by
  rw [rename, h]
  rfl

/-- The edits for a rule that can be renamed, by its name. -/
theorem rename_of_target {offset : Nat} {newName name : String}
    (hcheck : RuleName.check newName = .ok ())
    (h : ((ofTree document (parse limit source)).renameTarget? offset).map Site.name = some name) :
    (ofTree document (parse limit source)).rename offset newName =
      .ok (some (((Token.scan source).filter (Token.isNamed name)).map
        fun t => ⟨t.span, newName⟩)) := by
  obtain ⟨target, htarget, rfl⟩ := Option.map_eq_some_iff.mp h
  have hcore := isName_of_definitionOf? (Option.filter_eq_some_iff.mp htarget).2
  rw [rename_of_check hcheck, htarget, Option.map_some,
    occurrencesOf_eq document limit source hcore, List.map_map]
  rfl

/-- Renaming replaces the names with the key of the rule at the offset, which is no core rule, by a
name that passes the check. -/
theorem target_of_rename {offset : Nat} {newName : String} {edits : List TextEdit}
    (h : (ofTree document (parse limit source)).rename offset newName = .ok (some edits)) :
    RuleName.check newName = .ok () ∧ ∃ target,
      (ofTree document (parse limit source)).renameTarget? offset = some target ∧
      CoreRule.isName target.name = false ∧
      edits = ((Token.scan source).filter (Token.isNamed target.name)).map
        fun t => ⟨t.span, newName⟩ := by
  cases hcheck : RuleName.check newName with
  | error e =>
    rw [rename, hcheck] at h
    exact absurd h (by simp [bind, Except.bind])
  | ok u =>
    have hsome := h
    rw [rename_of_check hcheck] at hsome
    obtain ⟨target, htarget, -⟩ := Option.map_eq_some_iff.mp (Except.ok.inj hsome)
    have hcore := isName_of_definitionOf? (Option.filter_eq_some_iff.mp htarget).2
    rw [rename_of_target hcheck (congrArg (Option.map Site.name) htarget)] at h
    exact ⟨rfl, target, htarget, hcore, (Option.some.inj (Except.ok.inj h)).symm⟩

theorem exists_of_rename {offset : Nat} {newName : String} {edits : List TextEdit}
    (h : (ofTree document (parse limit source)).rename offset newName = .ok (some edits)) :
    RuleName.check newName = .ok () ∧ ∃ name, CoreRule.isName name = false ∧
      edits = ((Token.scan source).filter (Token.isNamed name)).map fun t => ⟨t.span, newName⟩ := by
  obtain ⟨hcheck, target, -, hcore, hedits⟩ := target_of_rename h
  exact ⟨hcheck, target.name, hcore, hedits⟩

end

end Index

/-! ### The tree of the new text -/

mutual

/-- A tree without errors holds no unknown token. -/
theorem Tree.known_of_mem_leaves (t : Tree) (h : t.hasError = false) {u : Token}
    (hu : u ∈ t.leaves) : u.kind ≠ .unknown := by
  cases t with
  | leaf token =>
    rw [Tree.leaves_leaf, List.mem_singleton] at hu
    rw [Tree.hasError, Bool.or_eq_false_iff, beq_eq_false_iff_ne, beq_eq_false_iff_ne] at h
    rw [hu]
    exact h.2
  | node kind span children =>
    rw [Tree.hasError, Bool.or_eq_false_iff] at h
    exact Tree.known_of_mem_leavesAll children h.2 hu

theorem Tree.known_of_mem_leavesAll (ts : List Tree) (h : Tree.anyError ts = false) {u : Token}
    (hu : u ∈ Tree.leavesAll ts) : u.kind ≠ .unknown := by
  cases ts with
  | nil => exact absurd hu (by simp)
  | cons t ts =>
    rw [Tree.anyError, Bool.or_eq_false_iff] at h
    rw [Tree.leavesAll_cons, List.mem_append] at hu
    rcases hu with hu | hu
    · exact Tree.known_of_mem_leaves t h.1 hu
    · exact Tree.known_of_mem_leavesAll ts h.2 hu

end

/-- A text whose tree has no errors has no unknown token. -/
theorem known_of_hasError {limit : Nat} {source : Text}
    (h : (parse limit source).root.hasError = false) :
    ∀ t ∈ Token.scan source, t.kind ≠ .unknown := by
  intro t ht hunknown
  have hsig : t.isSignificant = true := by rw [Token.isSignificant, hunknown]; rfl
  have hleaf : t ∈ (parse limit source).root.leaves := by
    rw [leaves_root]
    exact List.mem_filter.mpr ⟨ht, hsig⟩
  exact Tree.known_of_mem_leaves _ h hleaf hunknown

/-- The text of a leaf. -/
def SyntaxTree.leafText? (tree : SyntaxTree) (s : Site) : Option Text :=
  s.token?.map fun _ => tree.textOf s.node

/-- The text of a leaf is that of its token. -/
theorem leafText?_eq {limit : Nat} {source : Text} {s : Site} (hs : s ∈ (parse limit source).sites) :
    (parse limit source).leafText? s = s.token?.map Token.text := by
  rw [SyntaxTree.leafText?]
  cases htoken : s.token? with
  | none => rfl
  | some t =>
    rw [Option.map_some, Option.map_some, SyntaxTree.textOf, Site.node_of_token? htoken]
    exact congrArg some (Token.slice_span (mem_scan_of_token? hs htoken))

namespace Token

variable {name newName : String} (hcheck : RuleName.check newName = .ok ())
include hcheck

theorem respells_renamed : Respells (renamed name newName) := by
  intro t
  rw [renamed]
  split
  · rename_i hnamed
    exact Or.inr ⟨beq_iff_eq.mp (Bool.and_eq_true_iff.mp hnamed).1, (RuleName.of_check hcheck).1⟩
  · exact Or.inl rfl

/-- Neither the old nor the new name is that of a core rule, so that the grammar does not see the
difference. -/
theorem blind_renamed (hcore : CoreRule.isName name = false) :
    Grammar.Blind (Respelled (renamed name newName)) where
  kind h := h.kind
  line h := h.line
  core := by
    intro t t' h _
    rw [h.text, renamed]
    split
    · rename_i hnamed
      have hkey := beq_iff_eq.mp (Bool.and_eq_true_iff.mp hnamed).2
      rw [String.ofList_toList, (RuleName.of_check hcheck).2]
      exact (CoreRule.isName_congr hkey).trans hcore |>.symm
    · rfl

end Token

/-- Renaming a rule in a text without errors keeps the structure of the text.  Each edit is at a name.
After the edits the tree has the same nodes at the same depths in pre-order, and each leaf has the text
it had before, except that the names at the edits read as the new name. -/
theorem rename_keeps_structure (document : String) (limit : Nat) (source : Text) (offset : Nat)
    (newName : String) (edits : List TextEdit)
    (hclean : (parse limit source).root.hasError = false)
    (hrename : (Index.ofTree document (parse limit source)).rename offset newName =
      .ok (some edits)) :
    let before := parse limit source
    let after := parse limit (TextEdit.applyAll edits source)
    (∀ e ∈ edits, ∃ t ∈ Token.scan source, t.kind = .identifier ∧ t.span = e.span) ∧
      after.sites.map (fun s => (s.ancestors.length, s.node.kind)) =
        before.sites.map (fun s => (s.ancestors.length, s.node.kind)) ∧
      after.sites.map after.leafText? =
        before.sites.map fun s => (before.leafText? s).map fun text =>
          if s.node.span ∈ edits.map TextEdit.span then newName.toList else text := by
  intro before after
  obtain ⟨hcheck, name, hcore, hedits⟩ := Index.exists_of_rename hrename
  have hnew : TextEdit.applyAll edits source =
      (Token.scan source).flatMap (Token.renamed name newName) := by
    rw [hedits]
    exact TextEdit.applyAll_scanFrom name newName 0 true source [] rfl
  have hmatch : List.Forall₂ (Site.Matches (Token.Respelled (Token.renamed name newName)))
      before.sites after.sites := by
    refine sites_match (Token.blind_renamed hcheck hcore) limit ?_
    rw [hnew]
    exact Token.significant_respelled (Token.respells_renamed hcheck) (known_of_hasError hclean)
  have hspans : edits.map TextEdit.span =
      ((Token.scan source).filter (Token.isNamed name)).map Token.span := by
    rw [hedits, List.map_map]
    rfl
  refine ⟨?_, ?_, ?_⟩
  · intro e he
    have hspan : e.span ∈ edits.map TextEdit.span := List.mem_map_of_mem he
    rw [hspans] at hspan
    obtain ⟨t, ht, hte⟩ := List.mem_map.mp hspan
    obtain ⟨hscan, hnamed⟩ := List.mem_filter.mp ht
    exact ⟨t, hscan, beq_iff_eq.mp (Bool.and_eq_true_iff.mp hnamed).1, hte⟩
  · refine Site.map_eq_of_match hmatch fun s s' h => ?_
    rw [h.depth, h.kind]
  · -- both sides are what the renaming makes of the token of a leaf
    have hold : ∀ s ∈ before.sites, ((before.leafText? s).map fun text =>
        if s.node.span ∈ edits.map TextEdit.span then newName.toList else text) =
          s.token?.map (Token.renamed name newName) := by
      intro s hs
      rw [leafText?_eq hs]
      cases htoken : s.token? with
      | none => rfl
      | some t =>
        have hiff := Token.span_mem_filter (mem_scan_of_token? hs htoken) (Token.isNamed name)
        rw [Site.node_of_token? htoken, hspans]
        simp only [Option.map_some, Tree.span, hiff, Token.renamed]
    rw [List.map_congr_left hold, List.map_congr_left fun s hs => leafText?_eq hs]
    refine Site.map_eq_of_match hmatch fun s s' h => ?_
    have htoken := h.token
    revert htoken
    generalize s.token? = t, s'.token? = t'
    rintro (h | -)
    · exact congrArg some h.text
    · rfl

/-- The name of a rule next to a number, a star and a comment that holds it too, in two cases of its
letter. -/
theorem rename_keeps_structure_crowded :
    let source : Text := "a = 3a/*A;a\r\nb=a".toList
    let edits : List TextEdit := [⟨⟨0, 1⟩, "long-1"⟩, ⟨⟨5, 6⟩, "long-1"⟩, ⟨⟨8, 9⟩, "long-1"⟩,
      ⟨⟨15, 16⟩, "long-1"⟩]
    let before := parse 1 source
    let after := parse 1 (TextEdit.applyAll edits source)
    before.root.hasError = false ∧
      (Index.ofTree "grammar" before).rename 5 "long-1" = .ok (some edits) ∧
      TextEdit.applyAll edits source = "long-1 = 3long-1/*long-1;a\r\nb=long-1".toList ∧
      after.sites.map (fun s => (s.ancestors.length, s.node.kind)) =
        before.sites.map (fun s => (s.ancestors.length, s.node.kind)) := by
  intro source edits before after
  have hclean : before.root.hasError = false := by decide +kernel
  have hrename : (Index.ofTree "grammar" before).rename 5 "long-1" = .ok (some edits) := by
    have hname : ((Index.ofTree "grammar" before).renameTarget? 5).map Site.name = some "a" := by
      decide +kernel
    obtain ⟨target, htarget, hname⟩ := Option.map_eq_some_iff.mp hname
    rw [Index.rename, show RuleName.check "long-1" = .ok () by decide +kernel, htarget,
      Option.map_some, hname, Index.occurrencesOf_eq "grammar" 1 source (by decide +kernel)]
    decide +kernel
  refine ⟨hclean, hrename, by decide +kernel, ?_⟩
  exact (rename_keeps_structure "grammar" 1 source 5 "long-1" edits hclean hrename).2.1

end Abnf
