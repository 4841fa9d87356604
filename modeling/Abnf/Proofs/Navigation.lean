/-
The occurrences of a name answer alike.

Going to the definition of a name, finding its references and showing what is known about it all start
from the name at an offset.  They look the name up by its key, so that two offsets whose names have the
same key get the same answers (`Index.answersAlike_of_key`).  The references of a name with its
definitions are exactly the names of the text that have its key, except that a core rule is not defined
by the rules that have its name at their heads (`Index.mem_findReferences`).  So whichever occurrence is
asked, the answers are the same, and the definition that all of them lead to is the first of those in the
first column (`occurrences_answer_alike`).
-/
import Abnf.Feature.Hover
import Abnf.Proofs.FreshNames

namespace Abnf

/-! ### Names with the same key -/

namespace Index

/-- Whether two offsets get the same answers. -/
structure AnswersAlike (index : Index) (offset offset' : Nat) : Prop where
  definition : index.gotoDefinition? offset' = index.gotoDefinition? offset
  references : ∀ includeDefinitions, index.findReferences offset' includeDefinitions =
    index.findReferences offset includeDefinitions
  /-- Nothing is shown at either offset, or the same at both. -/
  hover : (index.hover? offset').map HoverCard.content = (index.hover? offset).map HoverCard.content

section

variable (index : Index) {a b : String} (h : RuleName.key a = RuleName.key b)
include h

theorem definitionsOf_congr : index.definitionsOf a = index.definitionsOf b := by
  rw [definitionsOf, h, definitionsOf]

theorem referencesOf_congr : index.referencesOf a = index.referencesOf b := by
  rw [referencesOf, h, referencesOf]

theorem hoverContent?_congr : index.hoverContent? a = index.hoverContent? b := by
  have hcore : CoreRule.find? a = CoreRule.find? b := by rw [CoreRule.find?, h, CoreRule.find?]
  rw [hoverContent?, hoverContent?, hcore, definitionOf?, definitionOf?, index.definitionsOf_congr h,
    index.referencesOf_congr h]

end

variable {index : Index} {offset : Nat} {target : Site}

theorem gotoDefinition?_of_target (h : index.targetAt? offset = some target) :
    index.gotoDefinition? offset = (index.definitionsOf target.name).head?.map Definition.location := by
  rw [gotoDefinition?, h, Option.bind_eq_bind, Option.bind_some, definitionOf?]
  cases (index.definitionsOf target.name).head? <;> rfl

theorem findReferences_of_target (h : index.targetAt? offset = some target)
    (includeDefinitions : Bool) :
    index.findReferences offset includeDefinitions =
      (if includeDefinitions then index.definitionsOf target.name else []).map Definition.location ++
        (index.referencesOf target.name).map fun s => ⟨index.document, s.node.span⟩ := by
  rw [findReferences, h]

theorem hover?_of_target (h : index.targetAt? offset = some target) :
    (index.hover? offset).map HoverCard.content = index.hoverContent? target.name := by
  rw [hover?, h, Option.bind_eq_bind, Option.bind_some]
  cases index.hoverContent? target.name <;> rfl

/-- Names with the same key answer alike. -/
theorem answersAlike_of_key (h : index.targetAt? offset = some target) {offset' : Nat}
    {target' : Site} (h' : index.targetAt? offset' = some target')
    (hkey : RuleName.key target'.name = RuleName.key target.name) :
    index.AnswersAlike offset offset' where
  definition := by
    rw [gotoDefinition?_of_target h, gotoDefinition?_of_target h', index.definitionsOf_congr hkey]
  references := by
    intro includeDefinitions
    rw [findReferences_of_target h, findReferences_of_target h', index.definitionsOf_congr hkey,
      index.referencesOf_congr hkey]
  hover := by rw [hover?_of_target h, hover?_of_target h', index.hoverContent?_congr hkey]

/-- The definition that a name leads to is the first of its references with the definitions. -/
theorem head?_findReferences (h : index.targetAt? offset = some target) {l : Location}
    (hl : index.gotoDefinition? offset = some l) :
    (index.findReferences offset true).head? = some l := by
  rw [gotoDefinition?_of_target h, ← List.head?_map] at hl
  rw [findReferences_of_target h, if_pos rfl, List.head?_append, hl]
  rfl

end Index

/-! ### Names of the text -/

namespace Token

/-- The first of the names of some sort is the one that starts first. -/
theorem start_le_of_head? {source : Text} {p : Token → Bool} {t : Token}
    (h : ((names source).filter p).head? = some t) :
    t ∈ names source ∧ p t = true ∧ ∀ u ∈ names source, p u = true → t.start ≤ u.start := by
  obtain ⟨more, hfilter⟩ := List.head?_eq_some_iff.mp h
  have hmem : ∀ u, u ∈ t :: more ↔ u ∈ names source ∧ p u = true := by
    intro u
    rw [← hfilter, List.mem_filter]
  have hsorted : (t :: more).Pairwise Before := by
    rw [← hfilter]
    exact (List.Pairwise.filter _ (pairwise_scanFrom 0 true source)).filter _
  obtain ⟨ht, hp⟩ := (hmem t).mp List.mem_cons_self
  refine ⟨ht, hp, fun u hu hpu => ?_⟩
  rcases List.mem_cons.mp ((hmem u).mpr ⟨hu, hpu⟩) with rfl | hmore
  · exact Nat.le_refl _
  · obtain ⟨hlt, hle⟩ := List.rel_of_pairwise_cons hsorted hmore
    omega

end Token

theorem Grammar.nameNode_inj {t u : Token} (h : nameNode t = nameNode u) : t = u := by
  have hleaves := congrArg Tree.leaves h
  exact List.singleton_inj.mp hleaves

/-- A name node is the head of a rule iff its name starts a line. -/
theorem Site.isHead_iff {limit : Nat} {source : Text} {s : Site} (hs : s ∈ (parse limit source).sites)
    {t : Token} (h : s.node = Grammar.nameNode t) : s.isHead = true ↔ t.atLineStart = true := by
  have hclass := classified_root limit source
  have hname : s.node.kind.isName = true := by rw [h, isName_nameNode]
  constructor
  · intro hhead
    have hmem := List.mem_map_of_mem (f := Site.node) (List.mem_filter.mpr ⟨hs, hhead⟩)
    rw [hclass.1] at hmem
    obtain ⟨u, hu, hnode⟩ := List.mem_map.mp hmem
    rw [← Grammar.nameNode_inj (hnode.trans h)]
    exact (Bool.and_eq_true_iff.mp (List.mem_filter.mp hu).2).2
  · intro hline
    -- a name that is no head is a reference, and references do not start a line
    by_contra hnot
    have href : s.isReference = true := by
      rw [isHead, hname, Bool.true_and, Bool.not_eq_true] at hnot
      rw [isReference, hname, hnot]
      rfl
    have hmem := List.mem_map_of_mem (f := Site.node) (List.mem_filter.mpr ⟨hs, href⟩)
    rw [hclass.2] at hmem
    obtain ⟨u, hu, hnode⟩ := List.mem_map.mp hmem
    have huse := (Bool.and_eq_true_iff.mp (List.mem_filter.mp hu).2).2
    rw [Grammar.nameNode_inj (hnode.trans h), hline] at huse
    exact absurd huse (by decide)

namespace Index

variable {document : String} {limit : Nat} {source : Text}

/-- The definitions of any name, those of core rules included. -/
theorem spans_definitionsOf (document : String) (limit : Nat) (source : Text) (name : String) :
    ((ofTree document (parse limit source)).definitionsOf name).map (·.head.node.span) =
      ((Token.names source).filter fun t =>
        (t.atLineStart && !CoreRule.isName t.name) &&
          RuleName.key t.name == RuleName.key name).map Token.span := by
  cases hcore : CoreRule.isName name with
  | true =>
    -- a core rule has no definitions, and no name with its key is left on the other side
    rw [definitionsOf_core hcore, List.map_nil, eq_comm, List.map_eq_nil_iff, List.filter_eq_nil_iff]
    intro t _ ht
    simp only [Bool.and_eq_true, beq_iff_eq, Bool.not_eq_true'] at ht
    rw [CoreRule.isName_congr ht.2, hcore] at ht
    exact absurd ht.1.2 (by decide)
  | false =>
    rw [definitionsOf_spans document limit source hcore]
    refine congrArg (List.map Token.span) (List.filter_congr fun t _ => ?_)
    by_cases hkey : RuleName.key t.name = RuleName.key name
    · rw [CoreRule.isName_congr hkey, hcore, Bool.not_false, Bool.and_true]
    · rw [beq_eq_false_iff_ne.mpr hkey, Bool.and_false, Bool.and_false]

variable {offset : Nat} {target : Site}

/-- The references of a name with its definitions are the names that have its key, except for the name
of a core rule at the head of a rule. -/
theorem mem_findReferences
    (h : (ofTree document (parse limit source)).targetAt? offset = some target) {l : Location} :
    l ∈ (ofTree document (parse limit source)).findReferences offset true ↔
      ∃ t ∈ Token.names source, l = ⟨document, t.span⟩ ∧
        RuleName.key t.name = RuleName.key target.name ∧
        ¬(t.atLineStart = true ∧ CoreRule.isName t.name = true) := by
  -- both halves are the spans of names of the text, all in the one document
  have hdefinitions : ((ofTree document (parse limit source)).definitionsOf target.name).map
      Definition.location = (((ofTree document (parse limit source)).definitionsOf target.name).map
        (·.head.node.span)).map (⟨document, ·⟩) := by
    rw [List.map_map]
    refine List.map_congr_left fun d hd => ?_
    rw [Definition.location, (exists_of_mem_definitionsOf hd).1]
    rfl
  have hreferences : ((ofTree document (parse limit source)).referencesOf target.name).map
      (fun s => (⟨document, s.node.span⟩ : Location)) =
        (((ofTree document (parse limit source)).referencesOf target.name).map
          (·.node.span)).map (⟨document, ·⟩) := by
    rw [List.map_map]
    rfl
  rw [findReferences_of_target h, if_pos rfl, hdefinitions,
    show (ofTree document (parse limit source)).document = document from rfl, hreferences,
    spans_definitionsOf, referencesOf_spans, List.map_map, List.map_map, List.mem_append,
    List.mem_map, List.mem_map]
  simp only [List.mem_filter, Bool.and_eq_true, beq_iff_eq, Bool.not_eq_true']
  constructor
  · rintro (⟨t, ⟨ht, ⟨-, hcore⟩, hkey⟩, rfl⟩ | ⟨t, ⟨ht, hline, hkey⟩, rfl⟩)
    · exact ⟨t, ht, rfl, hkey, by simp [hcore]⟩
    · exact ⟨t, ht, rfl, hkey, by simp [hline]⟩
  · rintro ⟨t, ht, rfl, hkey, hnot⟩
    cases hline : t.atLineStart with
    | true =>
      have hcore : CoreRule.isName t.name = false := by simpa [hline] using hnot
      exact Or.inl ⟨t, ⟨ht, ⟨hline, hcore⟩, hkey⟩, rfl⟩
    | false => exact Or.inr ⟨t, ⟨ht, hline, hkey⟩, rfl⟩

/-- The definition that a name leads to is the first name in the first column that has its key. -/
theorem start_le_of_gotoDefinition?
    (h : (ofTree document (parse limit source)).targetAt? offset = some target) {l : Location}
    (hl : (ofTree document (parse limit source)).gotoDefinition? offset = some l) :
    ∃ t ∈ Token.names source, l = ⟨document, t.span⟩ ∧ t.atLineStart = true ∧
      RuleName.key t.name = RuleName.key target.name ∧
      ∀ u ∈ Token.names source, u.atLineStart = true →
        RuleName.key u.name = RuleName.key target.name → t.start ≤ u.start := by
  rw [gotoDefinition?_of_target h] at hl
  obtain ⟨d, hd, rfl⟩ := Option.map_eq_some_iff.mp hl
  obtain ⟨hdocument, hkey, hcore⟩ := exists_of_mem_definitionsOf (List.mem_of_head? hd)
  have hspans := congrArg List.head? (definitionsOf_spans document limit source
    ((CoreRule.isName_congr hkey).symm.trans hcore))
  rw [List.head?_map, hd, List.head?_map, eq_comm, Option.map_some, Option.map_eq_some_iff] at hspans
  obtain ⟨t, ht, hspan⟩ := hspans
  obtain ⟨hname, hp, hfirst⟩ := Token.start_le_of_head? ht
  obtain ⟨hline, htkey⟩ := Bool.and_eq_true_iff.mp hp
  refine ⟨t, hname, ?_, hline, beq_iff_eq.mp htkey, fun u hu huline hukey => hfirst u hu ?_⟩
  · rw [Definition.location, hdocument, hspan]
  · rw [huline, hukey]
    simp

end Index

/-- All occurrences of a name answer alike.  Let an offset be on a name, and take any of its references
with the definitions, and any offset there.  The name at that offset stands exactly where the reference
does, and it leads to the same definition, has the same references with and without the definitions, and
shows the same.  The name itself is one of the references with the definitions, unless it is that of a
core rule at the head of a rule.  The definition that it leads to, if there is one, comes first among
them, and it is the first of all names in the first column that have its key. -/
theorem occurrences_answer_alike (document : String) (limit : Nat) (source : Text) (offset : Nat)
    (target : Site)
    (htarget : (Index.ofTree document (parse limit source)).targetAt? offset = some target) :
    let index := Index.ofTree document (parse limit source)
    let names := (Token.scan source).filter (·.kind == .identifier)
    (∀ l ∈ index.findReferences offset true, l.document = document ∧
        ∀ offset', l.span.contains offset' = true →
          (∃ target', index.targetAt? offset' = some target' ∧ target'.node.span = l.span) ∧
            index.AnswersAlike offset offset') ∧
      (⟨document, target.node.span⟩ ∈ index.findReferences offset true ↔
        ¬(target.isHead = true ∧ CoreRule.isName target.name = true)) ∧
      ∀ l, index.gotoDefinition? offset = some l →
        (index.findReferences offset true).head? = some l ∧
          ∃ t ∈ names, l = ⟨document, t.span⟩ ∧ t.atLineStart = true ∧
            RuleName.key t.name = RuleName.key target.name ∧
            ∀ u ∈ names, u.atLineStart = true →
              RuleName.key u.name = RuleName.key target.name → t.start ≤ u.start := by
  intro index names
  refine ⟨fun l hl => ?_, ?_, fun l hl => ?_⟩
  · obtain ⟨t, ht, rfl, hkey, -⟩ := (Index.mem_findReferences htarget).mp hl
    refine ⟨rfl, fun offset' hoffset' => ?_⟩
    obtain ⟨hscan, hkind⟩ := Token.mem_names.mp ht
    obtain ⟨target', -, htarget', hnode⟩ :=
      SyntaxTree.targetAt?_of_name limit hscan hkind hoffset'
    have hname : target'.name = t.name := by rw [Site.name, hnode, spelling_nameNode]
    refine ⟨⟨target', htarget', by rw [hnode, span_nameNode]⟩, ?_⟩
    exact Index.answersAlike_of_key htarget htarget' (by rw [hname, hkey])
  · obtain ⟨hmem, t, hscan, hkind, -, hnode⟩ := SyntaxTree.exists_of_targetAt? htarget
    have ht := Token.mem_names.mpr ⟨hscan, hkind⟩
    have hname : target.name = t.name := by rw [Site.name, hnode, spelling_nameNode]
    rw [Index.mem_findReferences htarget, Site.isHead_iff hmem hnode, hnode, span_nameNode, hname]
    constructor
    · rintro ⟨u, hu, hspan, -, hnot⟩
      -- no two tokens have the same span, so the reference is the name itself
      have hsame : t.span = u.span := congrArg Location.span hspan
      rwa [← Token.eq_of_span_eq hscan (Token.mem_names.mp hu).1 hsame] at hnot
    · intro hnot
      exact ⟨t, ht, rfl, rfl, hnot⟩
  · exact ⟨Index.head?_findReferences htarget hl, Index.start_le_of_gotoDefinition? htarget hl⟩

/-- A rule that is defined twice and refers to itself.  The name in a line that is no rule answers as the
reference in the rule does, and both lead to the first definition. -/
theorem occurrences_answer_alike_outside_rules :
    let index := Index.ofTree "grammar" (parse 1 "a = A b\n) a\na = b".toList)
    ∃ target, index.targetAt? 10 = some target ∧ target.node.span = ⟨10, 11⟩ ∧
      index.findReferences 10 true =
        [⟨"grammar", ⟨0, 1⟩⟩, ⟨"grammar", ⟨12, 13⟩⟩, ⟨"grammar", ⟨4, 5⟩⟩, ⟨"grammar", ⟨10, 11⟩⟩] ∧
      index.AnswersAlike 10 4 ∧ index.gotoDefinition? 4 = some ⟨"grammar", ⟨0, 1⟩⟩ := by
  intro index
  have hspan : (index.targetAt? 10).map (·.node.span) = some ⟨10, 11⟩ := by decide +kernel
  obtain ⟨target, htarget, hspan⟩ := Option.map_eq_some_iff.mp hspan
  have hall : index.findReferences 10 true =
      [⟨"grammar", ⟨0, 1⟩⟩, ⟨"grammar", ⟨12, 13⟩⟩, ⟨"grammar", ⟨4, 5⟩⟩, ⟨"grammar", ⟨10, 11⟩⟩] := by
    decide +kernel
  have hgoto : index.gotoDefinition? 10 = some ⟨"grammar", ⟨0, 1⟩⟩ := by decide +kernel
  have hreference : (⟨"grammar", ⟨4, 5⟩⟩ : Location) ∈ index.findReferences 10 true := by
    rw [hall]
    decide
  obtain ⟨hoccurrences, -⟩ :=
    occurrences_answer_alike "grammar" 1 "a = A b\n) a\na = b".toList 10 target htarget
  have halike := ((hoccurrences _ hreference).2 4 (by decide)).2
  exact ⟨target, htarget, hspan, hall, halike, halike.definition.trans hgoto⟩

end Abnf
