/-
What a pass over the sites of a tree finds.

The pass keeps three things at once: a list of definitions, the places of a name's definitions in this list,
and the references by name.  One visit adds to the list the names below the site that it visits
(`Findings.visit_definitions`), and the places that it takes down are those of the list as it is then
(`Findings.Placed.visit`).  So after a whole pass the definitions are those below the visited sites, the places
are those of the complete list, and the references are the ones among the visited sites
(`Index.definitions_ofTree_eq`, `Index.get?_positions`, `Index.references_ofTree`).

Looking a name up through the places is then the same as searching the list
(`Index.definitionsOf_eq_filter`).
-/
import Abnf.Index

namespace Abnf

/-- The definitions at some heads: those that are not named as a core rule. -/
def Definition.listAt (document : String) (heads : List Site) : List Definition :=
  (heads.filter fun s => !CoreRule.isName s.name).map fun s => ⟨document, s⟩

/-- Where the definitions with a key are in a list of definitions. -/
def Definition.placesOf (key : String) (definitions : List Definition) : List Nat :=
  (definitions.zipIdx.filter fun p => p.1.head.key == key).map Prod.snd

namespace Definition

theorem listAt_nil (document : String) : listAt document [] = [] := rfl

theorem listAt_append (document : String) (heads heads' : List Site) :
    listAt document (heads ++ heads') = listAt document heads ++ listAt document heads' := by
  rw [listAt, List.filter_append, List.map_append, listAt, listAt]

theorem placesOf_concat (key : String) (definitions : List Definition) (d : Definition) :
    placesOf key (definitions ++ [d]) =
      placesOf key definitions ++ if d.head.key = key then [definitions.length] else [] := by
  rw [placesOf, List.zipIdx_append, List.filter_append, List.map_append, placesOf, Nat.zero_add]
  refine congrArg (_ ++ ·) ?_
  by_cases h : d.head.key = key <;> simp [h]

/-- Places at which the right things stand lead back to these things. -/
theorem filterMap_map_snd {items : List Definition} {pairs : List (Definition × Nat)}
    (h : ∀ p ∈ pairs, items[p.2]? = some p.1) :
    (pairs.map Prod.snd).filterMap (items[·]?) = pairs.map Prod.fst := by
  induction pairs with
  | nil => rfl
  | cons p pairs ih =>
    rw [List.map_cons, List.filterMap_cons_some (h p List.mem_cons_self), List.map_cons,
      ih fun q hq => h q (List.mem_cons_of_mem _ hq)]

/-- The places of a key lead back to the definitions with this key. -/
theorem filterMap_placesOf (key : String) (definitions : List Definition) :
    (placesOf key definitions).filterMap (definitions[·]?) =
      definitions.filter fun d => d.head.key == key := by
  have hget : ∀ p ∈ definitions.zipIdx.filter (fun p => p.1.head.key == key),
      definitions[p.2]? = some p.1 := by
    intro p hp
    exact List.mem_zipIdx_iff_getElem?.mp (List.mem_filter.mp hp).1
  have hfilter := List.filter_map (f := Prod.fst) (p := fun d : Definition => d.head.key == key)
    (l := definitions.zipIdx)
  rw [List.zipIdx_map_fst] at hfilter
  rw [placesOf, filterMap_map_snd hget, hfilter]
  rfl

end Definition

namespace Findings

/-- Whether the places that were taken down are those of the definitions that were. -/
def Placed (found : Findings) : Prop :=
  ∀ key, found.positions.get? key =
    if (Definition.placesOf key found.definitions).isEmpty then none
    else some (Definition.placesOf key found.definitions)

theorem Placed.itemsOf {found : Findings} (h : found.Placed) (key : String) :
    found.positions.itemsOf key = Definition.placesOf key found.definitions := by
  rw [Table.itemsOf, h key]
  split
  · exact (List.isEmpty_iff.mp ‹_›).symm
  · rfl

theorem placed_empty : empty.Placed := fun _ => rfl

/-! ### One visit -/

section

variable (document : String) (found : Findings) (s : Site)

theorem define_definitions :
    (found.define document s).definitions = found.definitions ++ Definition.listAt document [s] := by
  rw [define]
  split
  · rename_i hcore
    rw [Definition.listAt, List.filter_cons_of_neg (by simpa using hcore), List.filter_nil,
      List.map_nil, List.append_nil]
  · rename_i hcore
    rw [Definition.listAt, List.filter_cons_of_pos (by simpa using hcore)]
    rfl

theorem define_references : (found.define document s).references = found.references := by
  rw [define]
  split <;> rfl

theorem Placed.define {found : Findings} (h : found.Placed) : (found.define document s).Placed := by
  intro key
  rw [Findings.define]
  split
  · exact h key
  · -- the new place is the length of the list before the definition was put behind it
    show (found.positions.add s.key found.definitions.length).get? key = _
    rw [Table.get?_add, h.itemsOf, Definition.placesOf_concat]
    by_cases hkey : s.key = key
    · subst hkey
      rw [if_pos rfl, if_pos rfl, if_neg (by simp)]
    · rw [if_neg hkey, if_neg hkey, List.append_nil]
      exact h key

end

theorem foldl_define_definitions (document : String) (found : Findings) (heads : List Site) :
    (heads.foldl (define document) found).definitions =
      found.definitions ++ Definition.listAt document heads := by
  induction heads generalizing found with
  | nil => rw [List.foldl_nil, Definition.listAt_nil, List.append_nil]
  | cons s heads ih =>
    rw [List.foldl_cons, ih, define_definitions, List.append_assoc, ← Definition.listAt_append]
    rfl

theorem foldl_define_references (document : String) (found : Findings) (heads : List Site) :
    (heads.foldl (define document) found).references = found.references := by
  induction heads generalizing found with
  | nil => rfl
  | cons s heads ih => rw [List.foldl_cons, ih, define_references]

theorem Placed.foldl_define (document : String) {found : Findings} (h : found.Placed)
    (heads : List Site) : (heads.foldl (Findings.define document) found).Placed := by
  induction heads generalizing found with
  | nil => exact h
  | cons s heads ih =>
    rw [List.foldl_cons]
    exact ih (h.define document s)

section

variable (document : String) (found : Findings) (s : Site)

theorem visit_definitions :
    (found.visit document s).definitions =
      found.definitions ++ Definition.listAt document s.heads := by
  rw [visit, ← foldl_define_definitions]
  split <;> rfl

theorem visit_references :
    (found.visit document s).references =
      if s.isReference then found.references.add s.key s else found.references := by
  rw [visit]
  split
  · rw [refer, foldl_define_references]
  · exact foldl_define_references document found s.heads

theorem Placed.visit {found : Findings} (h : found.Placed) : (found.visit document s).Placed := by
  have hdefined := h.foldl_define document s.heads
  rw [Findings.visit]
  split
  · exact hdefined
  · exact hdefined

end

/-! ### A pass -/

theorem foldl_visit_definitions (document : String) (found : Findings) (sites : List Site) :
    (sites.foldl (visit document) found).definitions =
      found.definitions ++ Definition.listAt document (sites.flatMap Site.heads) := by
  induction sites generalizing found with
  | nil => rw [List.foldl_nil, List.flatMap_nil, Definition.listAt_nil, List.append_nil]
  | cons s sites ih =>
    rw [List.foldl_cons, ih, visit_definitions, List.append_assoc, ← Definition.listAt_append,
      List.flatMap_cons]

/-- The references that were visited make groups, one item after the other. -/
theorem foldl_visit_references (document : String) (found : Findings) (visited : List Site)
    (h : found.references = .group Site.key (visited.filter Site.isReference)) (sites : List Site) :
    (sites.foldl (visit document) found).references =
      .group Site.key ((visited ++ sites).filter Site.isReference) := by
  induction sites generalizing found visited with
  | nil => rw [List.append_nil, List.foldl_nil, h]
  | cons s sites ih =>
    rw [List.foldl_cons, ih _ (visited ++ [s]), List.append_assoc, List.singleton_append]
    rw [visit_references, List.filter_append, h]
    split
    · rename_i hs
      rw [List.filter_cons_of_pos hs, List.filter_nil, Table.group_concat]
    · rename_i hs
      rw [List.filter_cons_of_neg hs, List.filter_nil, List.append_nil]

theorem Placed.foldl_visit (document : String) {found : Findings} (h : found.Placed)
    (sites : List Site) : (sites.foldl (Findings.visit document) found).Placed := by
  induction sites generalizing found with
  | nil => exact h
  | cons s sites ih =>
    rw [List.foldl_cons]
    exact ih (h.visit document s)

end Findings

/-! ### Indexes -/

namespace Index

variable (document : String) (tree : SyntaxTree)

theorem definitions_ofTree_eq :
    (ofTree document tree).definitions =
      Definition.listAt document (tree.sites.flatMap Site.heads) :=
  Findings.foldl_visit_definitions document .empty tree.sites

theorem references_ofTree :
    (ofTree document tree).references = .group Site.key (tree.sites.filter Site.isReference) :=
  Findings.foldl_visit_references document .empty [] rfl tree.sites

theorem get?_positions (key : String) :
    (ofTree document tree).positions.get? key =
      if (Definition.placesOf key (ofTree document tree).definitions).isEmpty then none
      else some (Definition.placesOf key (ofTree document tree).definitions) :=
  Findings.placed_empty.foldl_visit document tree.sites key

/-- Looking a name up is searching all definitions for its key. -/
theorem definitionsOf_eq_filter (name : String) :
    (ofTree document tree).definitionsOf name =
      (ofTree document tree).definitions.filter
        fun d => RuleName.key d.name == RuleName.key name := by
  have hplaces : (ofTree document tree).positions.itemsOf (RuleName.key name) =
      Definition.placesOf (RuleName.key name) (ofTree document tree).definitions :=
    (Findings.placed_empty.foldl_visit document tree.sites).itemsOf _
  rw [definitionsOf, hplaces, Definition.filterMap_placesOf]
  rfl

end Index

end Abnf
