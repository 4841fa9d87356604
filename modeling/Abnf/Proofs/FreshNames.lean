/-
Renaming a rule to a name that is not in use.

When no name of a text has the key of the new name, renaming cannot bring two rules together.  Every
name then keeps its place among the names of the text, and two names have one key after the renaming
iff they had one before (`RuleName.key_relabel_iff`).  So the definitions and references of the old
name move to the new one, those of the other names stay, and names lead to the definitions they led to
(`rename_to_fresh_name`).  Nor is anything lost: renaming the rule back gives the old text, if its
occurrences were all spelled in one way.

Spans change with the length of the name, so names of the two texts are compared by their number in
the text (`Span.Counterpart`).
-/
import Abnf.Proofs.RenameEdits

namespace Abnf

/-! ### Names and their keys -/

namespace RuleName

/-- What becomes of a name when the rule of another name is renamed. -/
def relabel (name newName a : String) : String := if key a = key name then newName else a

theorem relabel_self (name newName : String) : relabel name newName name = newName := if_pos rfl

section

variable {name newName : String}

theorem relabel_of_ne {a : String} (h : key a ≠ key name) : relabel name newName a = a := if_neg h

/-- Renaming to a name that is not in use keeps keys apart. -/
theorem key_relabel_iff (name : String) {a b : String} (ha : key a ≠ key newName)
    (hb : key b ≠ key newName) :
    key (relabel name newName a) = key (relabel name newName b) ↔ key a = key b := by
  by_cases hna : key a = key name
  · by_cases hnb : key b = key name
    · rw [relabel, if_pos hna, relabel, if_pos hnb, hna, hnb]
      exact iff_of_true rfl rfl
    · rw [relabel, if_pos hna, relabel_of_ne hnb, hna]
      exact iff_of_false (Ne.symm hb) (Ne.symm hnb)
  · by_cases hnb : key b = key name
    · rw [relabel_of_ne hna, relabel, if_pos hnb, hnb]
      exact iff_of_false ha hna
    · rw [relabel_of_ne hna, relabel_of_ne hnb]

/-- The old name is gone. -/
theorem key_relabel_ne (h : key newName ≠ key name) (a : String) :
    key (relabel name newName a) ≠ key name := by
  by_cases ha : key a = key name
  · rw [relabel, if_pos ha]
    exact h
  · rw [relabel_of_ne ha]
    exact ha

theorem isName_relabel (hcore : CoreRule.isName name = false)
    (hcore' : CoreRule.isName newName = false) (a : String) :
    CoreRule.isName (relabel name newName a) = CoreRule.isName a := by
  by_cases ha : key a = key name
  · rw [relabel, if_pos ha, hcore', CoreRule.isName_congr ha, hcore]
  · rw [relabel_of_ne ha]

end

/-- A name of a text may be given to a rule, unless it is that of a core rule. -/
theorem check_of_name {source : Text} {t : Token} (ht : t ∈ Token.scan source)
    (hkind : t.kind = .identifier) (hcore : CoreRule.isName t.name = false) :
    check t.name = .ok () := by
  obtain ⟨c, w, htext, hletter, hall⟩ := Token.letters_of_name ht hkind
  have hchars : t.name.toList = c :: w := by rw [Token.name, String.toList_ofList, htext]
  have hfind : w.find? (!Token.isNameChar ·) = none := by
    rw [List.find?_eq_none]
    intro d hd
    simpa using List.all_eq_true.mp hall d hd
  rw [check, hchars]
  simp only [hletter, if_true, hfind, hcore, Bool.false_eq_true, if_false]

end RuleName

/-! ### Names with the same number -/

/-- Names with the same number among the names of two texts. -/
def Token.Counterpart (source source' : Text) (t t' : Token) : Prop :=
  ∃ i : Nat, (Token.names source)[i]? = some t ∧ (Token.names source')[i]? = some t'

/-- Where names with the same number stand. -/
def Span.Counterpart (source source' : Text) (span span' : Span) : Prop :=
  ∃ t t', Token.Counterpart source source' t t' ∧ t.span = span ∧ t'.span = span'

/-- Locations in one document at names with the same number. -/
def Location.Counterpart (source source' : Text) (l l' : Location) : Prop :=
  l'.document = l.document ∧ Span.Counterpart source source' l.span l'.span

/-- The definitions and references of a name in an index are, in their order, at the names with the same
numbers as those of a name in another index. -/
structure Index.Moved (source source' : Text) (index index' : Index) (name name' : String) :
    Prop where
  definitions : List.Forall₂ (Span.Counterpart source source')
    ((index.definitionsOf name).map (·.head.node.span))
    ((index'.definitionsOf name').map (·.head.node.span))
  references : List.Forall₂ (Span.Counterpart source source')
    ((index.referencesOf name).map (·.node.span)) ((index'.referencesOf name').map (·.node.span))

namespace Token

variable {source source' : Text}

theorem Counterpart.mem {t t' : Token} (h : Counterpart source source' t t') :
    t ∈ names source ∧ t' ∈ names source' := by
  obtain ⟨i, ht, ht'⟩ := h
  exact ⟨List.mem_of_getElem? ht, List.mem_of_getElem? ht'⟩

section

variable {name newName : String}
  (hscan : List.Forall₂ (Respelled (renamed name newName)) (scan source) (scan source'))
include hscan

/-- Tokens with other names have as many names, each spelled anew. -/
theorem names_counterpart :
    List.Forall₂ (fun t t' => Counterpart source source' t t' ∧ Respelled (renamed name newName) t t')
      (names source) (names source') := by
  have hnames : List.Forall₂ (Respelled (renamed name newName)) (names source) (names source') :=
    List.rel_filter (fun t t' h => by simp only [h.kind]) hscan
  rw [List.forall₂_iff_get] at hnames ⊢
  refine ⟨hnames.1, fun i hi hi' => ⟨⟨i, ?_, ?_⟩, hnames.2 i hi hi'⟩⟩
  · exact List.getElem?_eq_getElem hi
  · exact List.getElem?_eq_getElem hi'

theorem respelled_of_counterpart {t t' : Token} (h : Counterpart source source' t t') :
    Respelled (renamed name newName) t t' := by
  obtain ⟨i, ht, ht'⟩ := h
  obtain ⟨hi, rfl⟩ := List.getElem?_eq_some_iff.mp ht
  obtain ⟨hi', rfl⟩ := List.getElem?_eq_some_iff.mp ht'
  exact ((List.forall₂_iff_get.mp (names_counterpart hscan)).2 i hi hi').2

theorem exists_counterpart {t' : Token} (ht' : t' ∈ names source') :
    ∃ t, Counterpart source source' t t' := by
  obtain ⟨i, hi', rfl⟩ := List.mem_iff_getElem.mp ht'
  have hi : i < (names source).length := by
    rw [(names_counterpart hscan).length_eq]
    exact hi'
  exact ⟨_, i, List.getElem?_eq_getElem hi, List.getElem?_eq_getElem hi'⟩

/-- Names with the same number are those before and after the renaming. -/
theorem name_of_counterpart {t t' : Token} (h : Counterpart source source' t t') :
    t'.name = RuleName.relabel name newName t.name := by
  have hkind := (mem_names.mp h.mem.1).2
  have htext := (respelled_of_counterpart hscan h).text
  by_cases hkey : RuleName.key t.name = RuleName.key name
  · have hnamed : t.isNamed name = true := by simp [isNamed, hkind, hkey]
    rw [Token.name, htext, renamed, if_pos hnamed, String.ofList_toList, RuleName.relabel,
      if_pos hkey]
  · have hnamed : ¬t.isNamed name = true := by simp [isNamed, hkey]
    rw [Token.name, htext, renamed, if_neg hnamed, RuleName.relabel_of_ne hkey, Token.name]

/-- No name of the new text has the key of the old name. -/
theorem key_ne_of_renamed (h : RuleName.key newName ≠ RuleName.key name) :
    ∀ t' ∈ names source', RuleName.key t'.name ≠ RuleName.key name := by
  intro t' ht'
  obtain ⟨t, ht⟩ := exists_counterpart hscan ht'
  rw [name_of_counterpart hscan ht]
  exact RuleName.key_relabel_ne h t.name

/-- What names with the same number have in common picks out names with the same number. -/
theorem spans_counterpart {p q : Token → Bool}
    (h : ∀ t t', Counterpart source source' t t' → p t = q t') :
    List.Forall₂ (Span.Counterpart source source') (((names source).filter p).map span)
      (((names source').filter q).map span) := by
  have hkept := List.rel_filter (p := p) (q := q) (fun t t' hp => by simp only [h t t' hp.1])
    (names_counterpart hscan)
  rw [List.forall₂_map_left_iff, List.forall₂_map_right_iff]
  exact hkept.imp fun t t' hp => ⟨t, t', hp.1, rfl, rfl⟩

/-- Spelled as it was, the new name gives the old text. -/
theorem flatMap_renamed_back (hfresh : ∀ t ∈ names source, RuleName.key t.name ≠ RuleName.key newName)
    {s : String} (hs : ∀ t ∈ scan source, t.isNamed name = true → t.text = s.toList) :
    (scan source').flatMap (renamed newName s) = source := by
  have hback : List.Forall₂ (fun t t' => t.text = renamed newName s t') (scan source)
      (scan source') := by
    have hmem := (List.forall₂_and_left (scan source) (scan source')).mpr
      ⟨fun t (ht : t ∈ scan source) => ht, hscan⟩
    refine hmem.imp fun t t' ⟨ht, h⟩ => ?_
    by_cases hnamed : t.isNamed name = true
    · have hnew : t'.isNamed newName = true := by
        have hkind := (Bool.and_eq_true_iff.mp hnamed).1
        rw [isNamed, h.kind, hkind, Token.name, h.text, renamed, if_pos hnamed, String.ofList_toList]
        simp
      rw [renamed, if_pos hnew, hs t ht hnamed]
    · have htext : t'.text = t.text := by rw [h.text, renamed, if_neg hnamed]
      have hold : ¬t'.isNamed newName = true := by
        intro hnew
        rw [isNamed, Bool.and_eq_true, beq_iff_eq, beq_iff_eq, h.kind, Token.name, htext] at hnew
        exact hfresh t (mem_names.mpr ⟨ht, hnew.1⟩) hnew.2
      rw [renamed, if_neg hold, htext]
  have hmap : (scan source).map text = (scan source').map (renamed newName s) := by
    rw [← List.forall₂_eq_eq_eq, List.forall₂_map_left_iff, List.forall₂_map_right_iff]
    exact hback
  rw [List.flatMap_def, ← hmap, ← List.flatMap_def]
  exact flatMap_text_scanFrom 0 true source

end

end Token

/-! ### The index of the new text -/

namespace Index

variable {document : String} {limit : Nat} {source source' : Text}

theorem definitionsOf_core {name : String} (h : CoreRule.isName name = true) :
    (ofTree document (parse limit source)).definitionsOf name = [] := by
  by_contra hne
  obtain ⟨d, hd⟩ := List.exists_mem_of_ne_nil _ hne
  obtain ⟨-, hkey, hcore⟩ := exists_of_mem_definitionsOf hd
  rw [CoreRule.isName_congr hkey, h] at hcore
  exact absurd hcore (by decide)

/-- A name is neither defined nor referred to iff no name of the text has its key. -/
theorem eq_nil_iff_fresh (document : String) (limit : Nat) (source : Text) {name : String}
    (hcore : CoreRule.isName name = false) :
    ((ofTree document (parse limit source)).definitionsOf name = [] ∧
        (ofTree document (parse limit source)).referencesOf name = []) ↔
      ∀ t ∈ Token.names source, RuleName.key t.name ≠ RuleName.key name := by
  rw [← List.map_eq_nil_iff, definitionsOf_spans document limit source hcore,
    ← List.map_eq_nil_iff (l := referencesOf _ _), referencesOf_spans, List.map_eq_nil_iff,
    List.map_eq_nil_iff, List.filter_eq_nil_iff, List.filter_eq_nil_iff]
  constructor
  · rintro ⟨hdefs, hrefs⟩ t ht hkey
    have hdef := hdefs t ht
    have href := hrefs t ht
    rw [hkey] at hdef href
    by_cases hline : t.atLineStart = true
    · exact hdef (by simp [hline])
    · exact href (by simp [hline])
  · intro hfresh
    exact ⟨fun t ht => by simp [hfresh t ht], fun t ht => by simp [hfresh t ht]⟩

/-- The name that the search finds at an offset in a name. -/
theorem targetAt?_of_name (document : String) (limit : Nat) {t : Token}
    (ht : t ∈ Token.names source) {offset : Nat} (h : t.span.contains offset = true) :
    ∃ target, (ofTree document (parse limit source)).targetAt? offset = some target ∧
      target.name = t.name := by
  obtain ⟨hscan, hkind⟩ := Token.mem_names.mp ht
  obtain ⟨target, -, htarget, hnode⟩ := SyntaxTree.targetAt?_of_name limit hscan hkind h
  exact ⟨target, htarget, by rw [Site.name, hnode, spelling_nameNode]⟩

/-- A name leads to the first of its definitions. -/
theorem gotoDefinition?_of_name (limit : Nat) {t : Token} (ht : t ∈ Token.names source)
    {offset : Nat} (h : t.span.contains offset = true) :
    (ofTree document (parse limit source)).gotoDefinition? offset =
      (((ofTree document (parse limit source)).definitionsOf t.name).map
        (·.head.node.span)).head?.map (⟨document, ·⟩) := by
  obtain ⟨target, htarget, hname⟩ := targetAt?_of_name document limit ht h
  rw [gotoDefinition?, htarget, Option.bind_eq_bind, Option.bind_some, hname, definitionOf?]
  cases hdefs : (ofTree document (parse limit source)).definitionsOf t.name with
  | nil => rfl
  | cons d ds =>
    have hmem : d ∈ (ofTree document (parse limit source)).definitionsOf t.name := by
      rw [hdefs]
      exact List.mem_cons_self
    show some d.location = some ⟨document, d.head.node.span⟩
    rw [Definition.location, (exists_of_mem_definitionsOf hmem).1]

/-- The edits of a renaming at a name that has a definition. -/
theorem rename_of_name (limit : Nat) {t : Token} (ht : t ∈ Token.names source) {offset : Nat}
    (h : t.span.contains offset = true) {newName : String} (hcheck : RuleName.check newName = .ok ())
    (hdefs : (ofTree document (parse limit source)).definitionsOf t.name ≠ []) :
    (ofTree document (parse limit source)).rename offset newName =
      .ok (some (((Token.scan source).filter (Token.isNamed t.name)).map
        fun u => ⟨u.span, newName⟩)) := by
  obtain ⟨target, htarget, hname⟩ := targetAt?_of_name document limit ht h
  have hsome : ((ofTree document (parse limit source)).definitionOf? target.name).isSome = true := by
    rw [definitionOf?, hname, List.isSome_head?]
    exact hdefs
  have hrename : (ofTree document (parse limit source)).renameTarget? offset = some target := by
    rw [renameTarget?, htarget, Option.filter_some, if_pos hsome]
  exact rename_of_target hcheck (by rw [hrename, Option.map_some, hname])

section

variable {name newName : String} (hcore : CoreRule.isName name = false)
  (hcore' : CoreRule.isName newName = false)
  (hscan : List.Forall₂ (Token.Respelled (Token.renamed name newName)) (Token.scan source)
    (Token.scan source'))
  (hfresh : ∀ t ∈ Token.names source, RuleName.key t.name ≠ RuleName.key newName)
include hcore hcore' hscan hfresh

/-- Definitions and references move with their name. -/
theorem moved_relabel (document : String) (limit : Nat) {a : String}
    (ha : RuleName.key a ≠ RuleName.key newName) :
    Moved source source' (ofTree document (parse limit source))
      (ofTree document (parse limit source')) a (RuleName.relabel name newName a) := by
  have hline : ∀ t t', Token.Counterpart source source' t t' → t'.atLineStart = t.atLineStart :=
    fun t t' h => (Token.respelled_of_counterpart hscan h).line
  have hkey : ∀ t t', Token.Counterpart source source' t t' →
      (RuleName.key t.name == RuleName.key a) =
        (RuleName.key t'.name == RuleName.key (RuleName.relabel name newName a)) := by
    intro t t' h
    have hiff := RuleName.key_relabel_iff name (hfresh t h.mem.1) ha
    rw [← Token.name_of_counterpart hscan h] at hiff
    rw [Bool.eq_iff_iff, beq_iff_eq, beq_iff_eq, hiff]
  have hisName := RuleName.isName_relabel hcore hcore' a
  constructor
  · cases hname : CoreRule.isName a with
    | true =>
      rw [definitionsOf_core hname, definitionsOf_core (hisName.trans hname)]
      exact .nil
    | false =>
      rw [definitionsOf_spans document limit source hname,
        definitionsOf_spans document limit source' (hisName.trans hname)]
      exact Token.spans_counterpart hscan fun t t' h => by rw [hline t t' h, hkey t t' h]
  · rw [referencesOf_spans, referencesOf_spans]
    exact Token.spans_counterpart hscan fun t t' h => by rw [hline t t' h, hkey t t' h]

/-- Names with the same number lead to definitions with the same number. -/
theorem gotoDefinition?_counterpart (document : String) (limit : Nat) {t t' : Token}
    (h : Token.Counterpart source source' t t') {offset offset' : Nat}
    (ho : t.span.contains offset = true) (ho' : t'.span.contains offset' = true) :
    Option.Rel (Location.Counterpart source source')
      ((ofTree document (parse limit source)).gotoDefinition? offset)
      ((ofTree document (parse limit source')).gotoDefinition? offset') := by
  have hmoved := (moved_relabel hcore hcore' hscan hfresh document limit
    (hfresh t h.mem.1)).definitions
  rw [← Token.name_of_counterpart hscan h] at hmoved
  rw [gotoDefinition?_of_name limit h.mem.1 ho, gotoDefinition?_of_name limit h.mem.2 ho']
  revert hmoved
  generalize List.map _ _ = spans, List.map _ _ = spans'
  rintro (- | ⟨hspan, -⟩)
  · exact .none
  · exact .some ⟨rfl, hspan⟩

/-- Renaming the rule back to its only spelling gives the old text. -/
theorem rename_back (document : String) (limit : Nat) {s : String}
    (hs : ∀ u ∈ Token.scan source, u.isNamed name = true → u.text = s.toList) {t t' : Token}
    (h : Token.Counterpart source source' t t') (hnamed : t.isNamed name = true)
    (hdefs : (ofTree document (parse limit source)).definitionsOf name ≠ []) {offset' : Nat}
    (ho' : t'.span.contains offset' = true) :
    ∃ edits', (ofTree document (parse limit source')).rename offset' s = .ok (some edits') ∧
      TextEdit.applyAll edits' source' = source := by
  obtain ⟨ht, hkind⟩ := Token.mem_names.mp h.mem.1
  have hkey := beq_iff_eq.mp (Bool.and_eq_true_iff.mp hnamed).2
  have hnew : t'.name = newName := by
    rw [Token.name_of_counterpart hscan h, RuleName.relabel, if_pos hkey]
  have hcheck : RuleName.check s = .ok () := by
    have hname : t.name = s := by rw [Token.name, hs t ht hnamed, String.ofList_toList]
    rw [← hname]
    exact RuleName.check_of_name ht hkind ((CoreRule.isName_congr hkey).trans hcore)
  have hdefs' : (ofTree document (parse limit source')).definitionsOf t'.name ≠ [] := by
    have hmoved := moved_relabel hcore hcore' hscan hfresh document limit (hfresh t h.mem.1)
    have hlength := hmoved.definitions.length_eq
    rw [← Token.name_of_counterpart hscan h, List.length_map, List.length_map] at hlength
    rw [← List.length_pos_iff, ← hlength, List.length_pos_iff, definitionsOf, hkey]
    exact hdefs
  refine ⟨_, rename_of_name limit h.mem.2 ho' hcheck hdefs', ?_⟩
  rw [hnew]
  exact (TextEdit.applyAll_scanFrom newName s 0 true source' [] rfl).trans
    (Token.flatMap_renamed_back hscan hfresh hs)

end

end Index

/-- Renaming a rule of a text without errors to a name that is neither defined nor referred to only
changes labels.  Definitions and references of the rule move to the new name, each with its number among
the names of the text and in the same order; the old name has none; those of every other name stay.  So
each name leads to the definition with the number of the one it led to before, or to none.  If the
renamed occurrences were all spelled in one way, then renaming any of them back to this gives the text
as it was. -/
theorem rename_to_fresh_name (document : String) (limit : Nat) (source : Text) (offset : Nat)
    (newName : String) (edits : List TextEdit)
    (hclean : (parse limit source).root.hasError = false)
    (hrename : (Index.ofTree document (parse limit source)).rename offset newName =
      .ok (some edits))
    (hdefinitions : (Index.ofTree document (parse limit source)).definitionsOf newName = [])
    (hreferences : (Index.ofTree document (parse limit source)).referencesOf newName = []) :
    let source' := TextEdit.applyAll edits source
    let index := Index.ofTree document (parse limit source)
    let index' := Index.ofTree document (parse limit source')
    (Token.names source').length = (Token.names source).length ∧
      (∃ target, index.renameTarget? offset = some target ∧
        Index.Moved source source' index index' target.name newName ∧
        index'.definitionsOf target.name = [] ∧ index'.referencesOf target.name = [] ∧
        ∀ name, RuleName.key name ≠ RuleName.key target.name →
          RuleName.key name ≠ RuleName.key newName →
          Index.Moved source source' index index' name name) ∧
      (∀ t t', Token.Counterpart source source' t t' → ∀ o o', t.span.contains o = true →
        t'.span.contains o' = true → Option.Rel (Location.Counterpart source source')
          (index.gotoDefinition? o) (index'.gotoDefinition? o')) ∧
      ∀ s : String, (∀ e ∈ edits, source.slice e.span = s.toList) →
        ∀ e ∈ edits, ∀ span', Span.Counterpart source source' e.span span' →
          ∀ o', span'.contains o' = true → ∃ edits', index'.rename o' s = .ok (some edits') ∧
            TextEdit.applyAll edits' source' = source := by
  intro source' index index'
  obtain ⟨hcheck, target, htarget, hcore, hedits⟩ := Index.target_of_rename hrename
  obtain ⟨-, t₀, ht₀, -, -, hname₀⟩ := Index.exists_of_renameTarget? htarget
  have hcore' := (RuleName.of_check hcheck).2
  have hfresh := (Index.eq_nil_iff_fresh document limit source hcore').mp ⟨hdefinitions, hreferences⟩
  have hsource' : source' = (Token.scan source).flatMap (Token.renamed target.name newName) := by
    show TextEdit.applyAll edits source = _
    rw [hedits]
    exact TextEdit.applyAll_scanFrom target.name newName 0 true source [] rfl
  have hscan : List.Forall₂ (Token.Respelled (Token.renamed target.name newName))
      (Token.scan source) (Token.scan source') := by
    rw [hsource']
    exact Token.scanFrom_respelled (Token.respells_renamed hcheck) 0 true source
      (known_of_hasError hclean) 0
  have hne : RuleName.key target.name ≠ RuleName.key newName := by
    rw [hname₀]
    exact hfresh t₀ ht₀
  have hmoved : Index.Moved source source' index index' target.name newName := by
    have hmoved := Index.moved_relabel hcore hcore' hscan hfresh document limit hne
    rwa [RuleName.relabel_self] at hmoved
  refine ⟨(Token.names_counterpart hscan).length_eq.symm, ⟨target, htarget, hmoved, ?_⟩, ?_, ?_⟩
  · have hgone := (Index.eq_nil_iff_fresh document limit source' hcore).mpr
      (Token.key_ne_of_renamed hscan hne.symm)
    refine ⟨hgone.1, hgone.2, fun name hkey hkey' => ?_⟩
    have hkept := Index.moved_relabel hcore hcore' hscan hfresh document limit hkey'
    rwa [RuleName.relabel_of_ne hkey] at hkept
  · intro t t' h o o' ho ho'
    exact Index.gotoDefinition?_counterpart hcore hcore' hscan hfresh document limit h ho ho'
  · rintro s hs e he span' ⟨t, t', h, hspan, rfl⟩ o' ho'
    rw [hedits] at hs he
    have hspelled : ∀ u ∈ Token.scan source, u.isNamed target.name = true → u.text = s.toList := by
      intro u hu hnamed
      rw [← Token.slice_span hu]
      exact hs ⟨u.span, newName⟩ (List.mem_map.mpr ⟨u, List.mem_filter.mpr ⟨hu, hnamed⟩, rfl⟩)
    -- the name with the number of the edit is the one that the edit replaces
    have hnamed : t.isNamed target.name = true := by
      obtain ⟨u, hu, rfl⟩ := List.mem_map.mp he
      refine (Token.span_mem_filter (Token.mem_names.mp h.mem.1).1 _).mp ?_
      rw [hspan]
      exact List.mem_map_of_mem hu
    have hsome := (Option.filter_eq_some_iff.mp htarget).2
    rw [Index.definitionOf?, List.isSome_head?] at hsome
    exact Index.rename_back hcore hcore' hscan hfresh document limit hspelled h hnamed
      (by simpa using hsome) ho'

/-- A rule that is named in two rules and in a comment, renamed to a longer name and back. -/
theorem rename_to_fresh_name_and_back :
    let source : Text := "a = b 2a ; a\r\nb = ALPHA / a".toList
    let edits : List TextEdit := [⟨⟨0, 1⟩, "x-1"⟩, ⟨⟨7, 8⟩, "x-1"⟩, ⟨⟨26, 27⟩, "x-1"⟩]
    let source' : Text := "x-1 = b 2x-1 ; a\r\nb = ALPHA / x-1".toList
    let index := Index.ofTree "grammar" (parse 1 source)
    let index' := Index.ofTree "grammar" (parse 1 source')
    (parse 1 source).root.hasError = false ∧ index.rename 7 "x-1" = .ok (some edits) ∧
      index.definitionsOf "x-1" = [] ∧ index.referencesOf "x-1" = [] ∧
      TextEdit.applyAll edits source = source' ∧
      Option.Rel (Location.Counterpart source source') (index.gotoDefinition? 26)
        (index'.gotoDefinition? 30) ∧
      ∃ edits', index'.rename 30 "a" = .ok (some edits') ∧
        TextEdit.applyAll edits' source' = source := by
  intro source edits source' index index'
  have hclean : (parse 1 source).root.hasError = false := by decide +kernel
  have hrename : index.rename 7 "x-1" = .ok (some edits) := by
    have hname : (index.renameTarget? 7).map Site.name = some "a" := by decide +kernel
    rw [Index.rename_of_target (by decide +kernel) hname]
    decide +kernel
  have hdefinitions : index.definitionsOf "x-1" = [] := List.isEmpty_iff.mp (by decide +kernel)
  have hreferences : index.referencesOf "x-1" = [] := List.isEmpty_iff.mp (by decide +kernel)
  have happly : TextEdit.applyAll edits source = source' := by decide +kernel
  have hresult := rename_to_fresh_name "grammar" 1 source 7 "x-1" edits hclean hrename hdefinitions
    hreferences
  rw [happly] at hresult
  obtain ⟨-, -, hgoto, hundo⟩ := hresult
  -- the last name of both texts
  have hlast : Token.Counterpart source source' ⟨.identifier, "a".toList, 26, false⟩
      ⟨.identifier, "x-1".toList, 30, false⟩ := ⟨5, by decide +kernel, by decide +kernel⟩
  refine ⟨hclean, hrename, hdefinitions, hreferences, happly, ?_, ?_⟩
  · exact hgoto _ _ hlast 26 30 (by decide) (by decide)
  · refine hundo "a" (by decide +kernel) ⟨⟨26, 27⟩, "x-1"⟩ (by decide) ⟨30, 33⟩ ?_ 30 (by decide)
    exact ⟨_, _, hlast, by decide, by decide⟩

end Abnf
