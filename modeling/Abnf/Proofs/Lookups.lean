/-
Looking names up in an index.

An index answers from two tables.  What it answers is what a search finds that compares all names, one
after the other (`Index.definitionsOf_eq_filter`, `Index.referencesOf_eq_filter`).

For this the tables are in order.  Each of their lists holds the sites of the tree that pass one test, in
the order of their numbers (`Index.list_of_mem`), and no site passes two of the tests.  So the lists
increase, and no site is in two of them.
-/
import Abnf.Proofs.Numbering
import Abnf.Proofs.Occurrence

namespace Abnf

theorem RuleName.isUpper_of_mem_key {name : String} {c : Char} (h : c ∈ (key name).toList) :
    c.isUpper = false := by
  rw [key, String.toList_ofList] at h
  obtain ⟨d, -, rfl⟩ := List.mem_map.mp h
  exact Text.isUpper_toLower d

namespace SyntaxTree

variable {limit : Nat} {source : Text}

/-- A name node covers its name. -/
theorem textOf_of_isName {s : Site} (hs : s ∈ (parse limit source).sites)
    (hname : s.node.kind.isName = true) :
    String.ofList ((parse limit source).textOf s.node) = s.name := by
  have hnode : ∃ t ∈ Token.significant source, s.node = Grammar.nameNode t := by
    have hnodes := classified_root limit source
    by_cases hrule : s.parent?.any (·.node.kind == .rule) = true
    · have hhead : s.isHead = true := by rw [Site.isHead, hname, hrule]; rfl
      have hmem := List.mem_map_of_mem (f := Site.node) (List.mem_filter.mpr ⟨hs, hhead⟩)
      rw [hnodes.1] at hmem
      obtain ⟨t, ht, heq⟩ := List.mem_map.mp hmem
      exact ⟨t, (List.mem_filter.mp ht).1, heq.symm⟩
    · have huse : s.isReference = true := by
        rw [Site.isReference, hname, Bool.eq_false_iff.mpr hrule]
        rfl
      have hmem := List.mem_map_of_mem (f := Site.node) (List.mem_filter.mpr ⟨hs, huse⟩)
      rw [hnodes.2] at hmem
      obtain ⟨t, ht, heq⟩ := List.mem_map.mp hmem
      exact ⟨t, (List.mem_filter.mp ht).1, heq.symm⟩
  obtain ⟨t, ht, hnode⟩ := hnode
  rw [textOf, Site.name, hnode, span_nameNode, spelling_nameNode]
  exact congrArg String.ofList (Token.slice_span (List.mem_filter.mp ht).1)

/-- The numbers of the sites that pass a test increase. -/
theorem pairwise_map_id (tree : SyntaxTree) (p : Site → Bool) :
    ((tree.sites.filter p).map Site.id).Pairwise (· < ·) :=
  List.pairwise_map.mpr (tree.pairwise_id_sites.filter p)

/-- If no site passes both of two tests, no number is among those of both. -/
theorem not_mem_map_id {tree : SyntaxTree} {p q : Site → Bool}
    (h : ∀ s, p s = true → q s = true → False) {n : Nat}
    (hn : n ∈ (tree.sites.filter p).map Site.id) : n ∉ (tree.sites.filter q).map Site.id := by
  intro hn'
  obtain ⟨s, hs, rfl⟩ := List.mem_map.mp hn
  obtain ⟨s', hs', hid⟩ := List.mem_map.mp hn'
  rw [List.mem_filter] at hs hs'
  have heq := eq_of_id_eq hs'.1 hs.1 hid
  rw [heq] at hs'
  exact h s hs.2 hs'.2

end SyntaxTree

namespace Index

/-- The lists of an index under their keys, by the numbers of their sites: those of the definitions and
those of the references. -/
def lists (index : Index) : List (String × List Nat) :=
  index.positions.entries.map
      (fun e => (e.1, (e.2.filterMap (index.definitions[·]?)).map (·.head.id))) ++
    index.references.entries.map fun e => (e.1, e.2.map Site.id)

/-- Whether a site is the head of a definition with a key. -/
def defines (key : String) (s : Site) : Bool :=
  (s.isHead && !CoreRule.isName s.name) && s.key == key

/-- Whether a site is a reference with a key. -/
def refers (key : String) (s : Site) : Bool := s.isReference && s.key == key

theorem not_defines_of_refers {key key' : String} {s : Site} (h : defines key s = true)
    (h' : refers key' s = true) : False := by
  simp only [defines, refers, Site.isHead, Site.isReference, Bool.and_eq_true,
    Bool.not_eq_true'] at h h'
  exact absurd h.1.1.2 (by rw [h'.1.2]; exact Bool.false_ne_true)

theorem key_of_defines {key : String} {s : Site} (h : defines key s = true) : s.key = key :=
  beq_iff_eq.mp (Bool.and_eq_true_iff.mp h).2

theorem key_of_refers {key : String} {s : Site} (h : refers key s = true) : s.key = key :=
  beq_iff_eq.mp (Bool.and_eq_true_iff.mp h).2

section

variable (document : String) (limit : Nat) (source : Text)

/-- The definitions with a key are at the sites that define it. -/
theorem map_head_definitions (key : String) :
    ((ofTree document (parse limit source)).definitions.filter (·.head.key == key)).map (·.head.id) =
      ((parse limit source).sites.filter (defines key)).map Site.id := by
  rw [definitions_ofTree, List.filter_map, List.filter_filter, List.map_map]
  refine congrArg (List.map Site.id) (List.filter_congr fun s _ => ?_)
  exact Bool.and_comm _ _

/-- Looking the references to a name up is searching all sites for them. -/
theorem referencesOf_eq_filter (name : String) :
    (ofTree document (parse limit source)).referencesOf name =
      (parse limit source).sites.filter fun s =>
        s.node.kind.isName && !s.parent?.any (·.node.kind == .rule) &&
          RuleName.key (String.ofList ((parse limit source).textOf s.node)) == RuleName.key name := by
  rw [referencesOf, references_ofTree, Table.itemsOf_group, List.filter_filter]
  refine List.filter_congr fun s hs => ?_
  rw [Bool.and_comm]
  cases hname : s.node.kind.isName with
  | false => rw [Site.isReference, hname, Bool.false_and, Bool.false_and, Bool.false_and]
  | true =>
    rw [SyntaxTree.textOf_of_isName hs hname, Site.isReference, hname]
    rfl

end

section

variable {document : String} {limit : Nat} {source : Text}

/-- The places under a key are those of the definitions with this key, and there are some. -/
theorem entry_positions {e : String × List Nat}
    (h : e ∈ (ofTree document (parse limit source)).positions.entries) :
    e.2 ≠ [] ∧ e.2 = Definition.placesOf e.1 (ofTree document (parse limit source)).definitions := by
  have hget := Table.get?_of_mem h
  rw [get?_positions] at hget
  split at hget
  · exact absurd hget (Option.some_ne_none _).symm
  · rename_i hne
    rw [← Option.some.inj hget]
    exact ⟨fun hnil => hne (List.isEmpty_iff.mpr hnil), rfl⟩

/-- The references under a key are the sites that refer to it, and there are some. -/
theorem entry_references {e : String × List Site}
    (h : e ∈ (ofTree document (parse limit source)).references.entries) :
    e.2 ≠ [] ∧ e.2 = (parse limit source).sites.filter (refers e.1) := by
  have hget := Table.get?_of_mem h
  rw [references_ofTree, Table.get?_group, List.filter_filter] at hget
  split at hget
  · exact absurd hget (Option.some_ne_none _).symm
  · rename_i hne
    rw [← Option.some.inj hget]
    refine ⟨fun hnil => hne (List.isEmpty_iff.mpr hnil), List.filter_congr fun s _ => ?_⟩
    exact Bool.and_comm _ _

theorem lt_of_mem_positions {e : String × List Nat}
    (h : e ∈ (ofTree document (parse limit source)).positions.entries) {n : Nat} (hn : n ∈ e.2) :
    n < (ofTree document (parse limit source)).definitions.length := by
  rw [(entry_positions h).2, Definition.placesOf] at hn
  obtain ⟨p, hp, rfl⟩ := List.mem_map.mp hn
  have hget := List.mem_zipIdx_iff_getElem?.mp (List.mem_filter.mp hp).1
  exact (List.getElem?_eq_some_iff.mp hget).1

/-- The definitions under a key are at the sites that define it. -/
theorem ids_positions {e : String × List Nat}
    (h : e ∈ (ofTree document (parse limit source)).positions.entries) :
    (e.2.filterMap ((ofTree document (parse limit source)).definitions[·]?)).map (·.head.id) =
      ((parse limit source).sites.filter (defines e.1)).map Site.id := by
  rw [(entry_positions h).2, Definition.filterMap_placesOf, map_head_definitions]

theorem ids_positions_ne_nil {e : String × List Nat}
    (h : e ∈ (ofTree document (parse limit source)).positions.entries) :
    (e.2.filterMap ((ofTree document (parse limit source)).definitions[·]?)).map (·.head.id) ≠ [] := by
  intro hnil
  rw [List.map_eq_nil_iff, List.filterMap_eq_nil_iff] at hnil
  obtain ⟨n, hn⟩ := List.exists_mem_of_ne_nil _ (entry_positions h).1
  have hout := List.getElem?_eq_none_iff.mp (hnil n hn)
  have hlt := lt_of_mem_positions h hn
  omega

/-- A list of an index is not empty, and it holds the sites that pass a test: that they define its key,
or that they refer to it. -/
theorem list_of_mem {l : String × List Nat} (h : l ∈ (ofTree document (parse limit source)).lists) :
    l.2 ≠ [] ∧ ∃ p : Site → Bool, (∀ s, p s = true → s.key = l.1) ∧
      l.2 = ((parse limit source).sites.filter p).map Site.id := by
  rcases List.mem_append.mp h with h | h
  · obtain ⟨e, he, rfl⟩ := List.mem_map.mp h
    exact ⟨ids_positions_ne_nil he, defines e.1, fun s => key_of_defines, ids_positions he⟩
  · obtain ⟨e, he, rfl⟩ := List.mem_map.mp h
    obtain ⟨hne, hsites⟩ := entry_references he
    refine ⟨fun hnil => hne (List.map_eq_nil_iff.mp hnil), refers e.1, fun s => key_of_refers, ?_⟩
    exact congrArg (List.map Site.id) hsites

theorem ordered_of_mem {l : String × List Nat}
    (h : l ∈ (ofTree document (parse limit source)).lists) :
    (∀ c ∈ l.1.toList, c.isUpper = false) ∧ l.2 ≠ [] ∧ l.2.Pairwise (· < ·) := by
  obtain ⟨hne, p, hkey, hids⟩ := list_of_mem h
  refine ⟨?_, hne, ?_⟩
  · -- the key is that of any site in the list
    obtain ⟨n, hn⟩ := List.exists_mem_of_ne_nil _ hne
    rw [hids] at hn
    obtain ⟨s, hs, -⟩ := List.mem_map.mp hn
    intro c hc
    rw [← hkey s (List.mem_filter.mp hs).2] at hc
    exact RuleName.isUpper_of_mem_key hc
  · rw [hids]
    exact (parse limit source).pairwise_map_id p

/-- No site is in two lists of an index. -/
theorem pairwise_lists :
    (ofTree document (parse limit source)).lists.Pairwise fun l l' => ∀ n ∈ l.2, n ∉ l'.2 := by
  refine List.pairwise_append.mpr ⟨?_, ?_, ?_⟩
  · refine List.pairwise_map.mpr ((Table.sorted _).imp_of_mem fun {e e'} he he' hlt n hn => ?_)
    rw [ids_positions he] at hn
    rw [ids_positions he']
    refine SyntaxTree.not_mem_map_id (fun s hs hs' => ?_) hn
    rw [← key_of_defines hs, key_of_defines hs'] at hlt
    exact String.lt_irrefl _ hlt
  · refine List.pairwise_map.mpr ((Table.sorted _).imp_of_mem fun {e e'} he he' hlt n hn => ?_)
    rw [(entry_references he).2] at hn
    rw [(entry_references he').2]
    refine SyntaxTree.not_mem_map_id (fun s hs hs' => ?_) hn
    rw [← key_of_refers hs, key_of_refers hs'] at hlt
    exact String.lt_irrefl _ hlt
  · intro l hl l' hl' n hn
    obtain ⟨e, he, rfl⟩ := List.mem_map.mp hl
    obtain ⟨e', he', rfl⟩ := List.mem_map.mp hl'
    rw [ids_positions he] at hn
    rw [(entry_references he').2]
    exact SyntaxTree.not_mem_map_id (fun s hs hs' => not_defines_of_refers hs hs') hn

end

end Index

/-- Lookups are searches.  The definitions of a name are those of all definitions whose names have its key,
in their order, and the name leads to the first of them.  The references to a name are the name nodes that
are not directly below a rule and cover a text with its key, in the order of the tree.

The tables behind the lookups are in order.  The places of definitions are places in the list of all
definitions.  The keys are in lower case, no list is empty, the numbers of the nodes in each list increase,
and no node is in two lists. -/
theorem lookups_are_searches (document : String) (limit : Nat) (source : Text) :
    let index := Index.ofTree document (parse limit source)
    (∀ name,
      let found := index.definitions.filter fun d => RuleName.key d.name == RuleName.key name
      index.definitionsOf name = found ∧ index.definitionOf? name = found.head? ∧
        index.referencesOf name = index.tree.sites.filter fun s =>
          s.node.kind.isName && !s.parent?.any (·.node.kind == .rule) &&
            RuleName.key (String.ofList (index.tree.textOf s.node)) == RuleName.key name) ∧
      (∀ e ∈ index.positions.entries, ∀ n ∈ e.2, n < index.definitions.length) ∧
      (∀ l ∈ index.lists,
        (∀ c ∈ l.1.toList, c.isUpper = false) ∧ l.2 ≠ [] ∧ l.2.Pairwise (· < ·)) ∧
      index.lists.Pairwise fun l l' => ∀ n ∈ l.2, n ∉ l'.2 := by
  intro index
  refine ⟨fun name => ?_, fun e he n hn => ?_, fun l hl => ?_, ?_⟩
  · have hfound := Index.definitionsOf_eq_filter document (parse limit source) name
    refine ⟨hfound, ?_, Index.referencesOf_eq_filter document limit source name⟩
    exact congrArg List.head? hfound
  · exact Index.lt_of_mem_positions he hn
  · exact Index.ordered_of_mem hl
  · exact Index.pairwise_lists

end Abnf
