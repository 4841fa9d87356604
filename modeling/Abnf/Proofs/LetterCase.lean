/-
The case of letters does not matter.

Case comes in at several places: at the letters of a name, at the marks after a percent sign, at the
names of core rules in the grammar and again in the index, and at the keys under which names are stored
and looked up.  What is told from a text in lower case is at every one of these places what was told
from the text itself, so the index of the text in lower case is the index that it was, with its sites in
lower case (`Index.ofTree_lower`), and every answer that is made of numbers, spans and keys is the same
(`Index.gotoDefinition?_lower`, `Index.findReferences_lower`, `Index.rename_lower`).

Two texts that differ in case only are the same text in lower case, so they have the same answers
(`letter_case_is_ignored`).
-/
import Abnf.Feature.Navigation
import Abnf.Proofs.Findings
import Abnf.Proofs.LowerCase

namespace Abnf

/-! ### Tables -/

namespace Table

variable {α β : Type}

/-- A table with other values for the same names. -/
def map (f : α → β) (t : Table α) : Table β where
  entries := t.entries.map fun e => (e.1, f e.2)
  sorted := List.pairwise_map.mpr t.sorted

theorem get?_map (f : α → β) (t : Table α) (name : String) :
    (t.map f).get? name = (t.get? name).map f := by
  rw [get?, get?, map, List.find?_map, Option.map_map, Option.map_map]
  rfl

theorem itemsOf_map (f : α → β) (t : Table (List α)) (name : String) :
    (t.map (List.map f)).itemsOf name = (t.itemsOf name).map f := by
  rw [itemsOf, get?_map, itemsOf]
  cases t.get? name <;> rfl

theorem updateEntry_map {f : α → β} {g : Option α → α} {g' : Option β → β}
    (h : ∀ v, g' (v.map f) = f (g v)) (name : String) (entries : List (String × α)) :
    updateEntry name g' (entries.map fun e => (e.1, f e.2)) =
      (updateEntry name g entries).map fun e => (e.1, f e.2) := by
  induction entries with
  | nil => exact congrArg (fun v => [(name, v)]) (h none)
  | cons e rest ih =>
    obtain ⟨n, v⟩ := e
    rw [List.map_cons, updateEntry, updateEntry]
    split
    · exact congrArg (fun v => (name, v) :: _) (h none)
    · split
      · exact congrArg (fun v => (n, v) :: _) (h (some v))
      · rw [List.map_cons, ih]

/-- Items that keep their names are grouped as before. -/
theorem group_map {nameOf : α → String} {nameOf' : β → String} {f : α → β}
    (h : ∀ a, nameOf' (f a) = nameOf a) (items : List α) :
    group nameOf' (items.map f) = (group nameOf items).map (List.map f) := by
  induction items with
  | nil => rfl
  | cons a items ih =>
    rw [List.map_cons, group, group, ih, h, update, update, map, map]
    congr 1
    refine updateEntry_map (fun v => ?_) (nameOf a) _
    cases v <;> rfl

end Table

/-! ### Indexes -/

theorem Site.heads_lower (s : Site) : s.lower.heads = s.heads.map lower := by
  rw [heads, heads, children_lower, show s.lower.node.kind = s.node.kind from s.node.kind_lower]
  split
  · rw [List.filter_map]
    simp only [Function.comp_def, lower, Tree.kind_lower]
  · rfl

def Definition.lower (d : Definition) : Definition := ⟨d.document, d.head.lower⟩

namespace Definition

theorem location_lower (d : Definition) : d.lower.location = d.location := by
  rw [location, lower, Site.lower, Tree.span_lower, location]

theorem placesOf_lower (key : String) (definitions : List Definition) :
    placesOf key (definitions.map lower) = placesOf key definitions := by
  have hkey : ∀ d : Definition, d.lower.head.key = d.head.key := fun d => d.head.key_lower
  rw [placesOf, List.zipIdx_map, List.filter_map, List.map_map, placesOf]
  simp only [Function.comp_def, Prod.map, hkey, id_eq]

end Definition

namespace Index

/-- An index of a text in lower case. -/
def lower (index : Index) : Index where
  document := index.document
  tree := index.tree.lower
  definitions := index.definitions.map Definition.lower
  positions := index.positions
  references := index.references.map (List.map Site.lower)

theorem definitions_ofTree_lower (document : String) (tree : SyntaxTree) :
    (ofTree document tree.lower).definitions =
      (ofTree document tree).definitions.map Definition.lower := by
  have hcore : ∀ s : Site, CoreRule.isName s.lower.name = CoreRule.isName s.name :=
    fun s => CoreRule.isName_congr s.key_lower
  rw [definitions_ofTree_eq, definitions_ofTree_eq, SyntaxTree.sites_lower, List.flatMap_map]
  simp only [Site.heads_lower]
  rw [← List.map_flatMap, Definition.listAt, List.filter_map, Definition.listAt, List.map_map,
    List.map_map]
  simp only [Function.comp_def, hcore]
  rfl

theorem positions_ofTree_lower (document : String) (tree : SyntaxTree) :
    (ofTree document tree.lower).positions = (ofTree document tree).positions := by
  refine Table.eq_of_get? fun key => ?_
  rw [get?_positions, get?_positions, definitions_ofTree_lower, Definition.placesOf_lower]

theorem ofTree_lower (document : String) (tree : SyntaxTree) :
    ofTree document tree.lower = (ofTree document tree).lower := by
  have hreferences : (ofTree document tree.lower).references =
      (ofTree document tree).references.map (List.map Site.lower) := by
    rw [references_ofTree, references_ofTree, ← Table.group_map Site.key_lower,
      SyntaxTree.sites_lower, List.filter_map]
    simp only [Function.comp_def, Site.isReference_lower]
  have hdefinitions := definitions_ofTree_lower document tree
  have hpositions := positions_ofTree_lower document tree
  rw [lower, ← hdefinitions, ← hpositions, ← hreferences]
  rfl

section

variable (index : Index)

theorem targetAt?_lower (offset : Nat) :
    index.lower.targetAt? offset = (index.targetAt? offset).map Site.lower :=
  index.tree.targetAt?_lower offset

theorem definitionsOf_lower (s : Site) :
    index.lower.definitionsOf s.lower.name = (index.definitionsOf s.name).map Definition.lower := by
  have hkey : RuleName.key s.lower.name = RuleName.key s.name := s.key_lower
  rw [definitionsOf, definitionsOf, lower, hkey, List.map_filterMap]
  simp only [List.getElem?_map]

theorem referencesOf_lower (s : Site) :
    index.lower.referencesOf s.lower.name = (index.referencesOf s.name).map Site.lower := by
  rw [referencesOf, referencesOf, lower, Table.itemsOf_map]
  exact congrArg (fun key => (index.references.itemsOf key).map _) s.key_lower

theorem definitionOf?_lower (s : Site) :
    index.lower.definitionOf? s.lower.name = (index.definitionOf? s.name).map Definition.lower := by
  rw [definitionOf?, definitionsOf_lower, List.head?_map, definitionOf?]

theorem gotoDefinition?_lower (offset : Nat) :
    index.lower.gotoDefinition? offset = index.gotoDefinition? offset := by
  rw [gotoDefinition?, targetAt?_lower, gotoDefinition?]
  cases index.targetAt? offset with
  | none => rfl
  | some s =>
    show (index.lower.definitionOf? s.lower.name).bind _ = (index.definitionOf? s.name).bind _
    rw [definitionOf?_lower]
    cases index.definitionOf? s.name with
    | none => rfl
    | some d => exact congrArg some d.location_lower

theorem findReferences_lower (offset : Nat) (includeDefinitions : Bool) :
    index.lower.findReferences offset includeDefinitions =
      index.findReferences offset includeDefinitions := by
  rw [findReferences, targetAt?_lower, findReferences]
  cases index.targetAt? offset with
  | none => rfl
  | some s =>
    show ((if includeDefinitions then index.lower.definitionsOf s.lower.name else []).map _ ++
      (index.lower.referencesOf s.lower.name).map _) = _
    rw [definitionsOf_lower, referencesOf_lower]
    cases includeDefinitions <;>
      simp [Function.comp_def, Definition.location_lower, Site.lower, lower]

theorem occurrencesOf_lower (s : Site) :
    index.lower.occurrencesOf s.lower.name = index.occurrencesOf s.name := by
  rw [occurrencesOf, definitionsOf_lower, referencesOf_lower, occurrencesOf, List.map_map,
    List.map_map]
  simp only [Function.comp_def, Definition.lower, Site.lower, Tree.span_lower]

theorem rename_lower (offset : Nat) (newName : String) :
    index.lower.rename offset newName = index.rename offset newName := by
  have hsame : (index.lower.renameTarget? offset).map
      (fun target => (index.lower.occurrencesOf target.name).map (TextEdit.mk · newName)) =
        (index.renameTarget? offset).map
          fun target => (index.occurrencesOf target.name).map (TextEdit.mk · newName) := by
    rw [renameTarget?, targetAt?_lower, renameTarget?]
    cases index.targetAt? offset with
    | none => rfl
    | some s =>
      rw [Option.map_some, Option.filter_some, Option.filter_some, definitionOf?_lower,
        Option.isSome_map]
      split
      · rw [Option.map_some, occurrencesOf_lower, Option.map_some]
      · rfl
  rw [rename, hsame, rename]

theorem map_references_lower :
    index.lower.references.entries.map (fun e => (e.1, e.2.map Site.id)) =
      index.references.entries.map fun e => (e.1, e.2.map Site.id) := by
  show (index.references.entries.map fun e => (e.1, e.2.map Site.lower)).map _ = _
  rw [List.map_map]
  refine List.map_congr_left fun e _ => ?_
  show (e.1, (e.2.map Site.lower).map Site.id) = _
  rw [List.map_map]
  rfl

theorem map_definitions_lower :
    index.lower.definitions.map (fun d => (d.head.id, RuleName.key d.name)) =
      index.definitions.map fun d => (d.head.id, RuleName.key d.name) := by
  rw [lower, List.map_map]
  refine List.map_congr_left fun d _ => ?_
  exact congrArg (Prod.mk d.head.id) d.head.key_lower

end

end Index

/-- The case of ASCII letters does not matter.  Two texts that differ in nothing else have trees with the
same nodes: their numbers, kinds and spans, and the numbers of their parents and children.  The tables
of references have the same keys with the same nodes, and the definitions are at the same nodes, with
names of the same keys.  At every offset the smallest node and the name are the same, and so are the
definition that the name leads to, its references, and the edits that rename it. -/
theorem letter_case_is_ignored (document : String) (limit : Nat) (source source' : Text)
    (h : source'.map Char.toLower = source.map Char.toLower) :
    let tree := parse limit source
    let tree' := parse limit source'
    let index := Index.ofTree document tree
    let index' := Index.ofTree document tree'
    tree'.sites.map Site.frame = tree.sites.map Site.frame ∧
      index'.references.entries.map (fun e => (e.1, e.2.map Site.id)) =
        index.references.entries.map (fun e => (e.1, e.2.map Site.id)) ∧
      index'.definitions.map (fun d => (d.head.id, RuleName.key d.name)) =
        index.definitions.map (fun d => (d.head.id, RuleName.key d.name)) ∧
      ∀ offset, (tree'.siteAt? offset).map Site.frame = (tree.siteAt? offset).map Site.frame ∧
        (tree'.targetAt? offset).map Site.frame = (tree.targetAt? offset).map Site.frame ∧
        index'.gotoDefinition? offset = index.gotoDefinition? offset ∧
        (∀ includeDefinitions, index'.findReferences offset includeDefinitions =
          index.findReferences offset includeDefinitions) ∧
        ∀ newName, index'.rename offset newName = index.rename offset newName := by
  intro tree tree' index index'
  -- both sides of every equation are told from the tree and the index in lower case
  have htree : tree'.lower = tree.lower := by
    rw [← parse_lower, ← parse_lower]
    exact congrArg (parse limit) h
  have hindex : index'.lower = index.lower := by
    rw [← Index.ofTree_lower, ← Index.ofTree_lower, htree]
  refine ⟨?_, ?_, ?_, fun offset => ⟨?_, ?_, ?_, fun includeDefinitions => ?_, fun newName => ?_⟩⟩
  · rw [← tree'.map_frame_lower, htree, tree.map_frame_lower]
  · rw [← index'.map_references_lower, hindex, index.map_references_lower]
  · rw [← index'.map_definitions_lower, hindex, index.map_definitions_lower]
  · rw [← tree'.frame_siteAt?_lower, htree, tree.frame_siteAt?_lower]
  · rw [← tree'.frame_targetAt?_lower, htree, tree.frame_targetAt?_lower]
  · rw [← index'.gotoDefinition?_lower, hindex, index.gotoDefinition?_lower]
  · rw [← index'.findReferences_lower, hindex, index.findReferences_lower]
  · rw [← index'.rename_lower, hindex, index.rename_lower]

/-- A rule in three spellings, a value with its base in two cases, and a head and a comment in the case of
other letters. -/
theorem letter_case_is_ignored_mixed :
    let source : Text := "Foo = %X4a / %s\"Q\" fOO ; Bar\r\nalpha = FOO".toList
    let source' : Text := "fOO = %x4A / %S\"q\" foo ; bAR\r\nALPHA = Foo".toList
    let index := Index.ofTree "grammar" (parse 1 source)
    let index' := Index.ofTree "grammar" (parse 1 source')
    source'.map Char.toLower = source.map Char.toLower ∧
      (parse 1 source').sites.map Site.frame = (parse 1 source).sites.map Site.frame ∧
      index'.gotoDefinition? 20 = index.gotoDefinition? 20 ∧
      index.gotoDefinition? 20 = some ⟨"grammar", ⟨0, 3⟩⟩ := by
  intro source source' index index'
  have hsame : source'.map Char.toLower = source.map Char.toLower := by decide
  obtain ⟨hframes, -, -, hat⟩ := letter_case_is_ignored "grammar" 1 source source' hsame
  exact ⟨hsame, hframes, (hat 20).2.2.1, by decide +kernel⟩

end Abnf
