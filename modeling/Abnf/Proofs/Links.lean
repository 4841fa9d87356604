/-
The links between the nodes of a tree.

The nodes of a text are kept in a list, each with the numbers of its parent and of its children.  The order of
the list, the way up and the way down are three views of one tree, and they agree (`Arena.linked_entries`).
Each node is a site, and a site is known by its number.  So the way up and the way down lead through the same
sites, and a subtree has the numbers of the sites of its tree, which come one after the other
(`Arena.below_iff`).

The list is what the builder makes from the record of a text, if the record is short enough for the numbers to
fit into words (`nodes_are_linked_in_preorder`).
-/
import Abnf.Proofs.Building
import Abnf.Proofs.GrammarRecords
import Abnf.Proofs.Innermost

namespace Abnf

/-! ### Sites -/

namespace Site

theorem mem_preorder_of_mem_children {s c : Site} (h : c ∈ s.children) :
    c ∈ preorder s.id s.ancestors s.node := by
  obtain ⟨id, node, ancestors⟩ := s
  cases node with
  | leaf token => exact absurd h List.not_mem_nil
  | node kind span ts => exact List.mem_cons_of_mem _ ((siblings_sublist _ _ _).subset h)

mutual

/-- What is below a site of a tree is below the tree. -/
theorem preorder_subset (id : Nat) (ancestors : List (Nat × Tree)) (x : Tree) {s : Site}
    (h : s ∈ preorder id ancestors x) :
    preorder s.id s.ancestors s.node ⊆ preorder id ancestors x := by
  cases x with
  | leaf token =>
    rw [List.mem_singleton.mp h]
    exact List.Subset.refl _
  | node kind span ts =>
    rcases List.mem_cons.mp h with rfl | h
    · exact List.Subset.refl _
    · exact List.Subset.trans (preorder_subset_all _ _ ts h) (List.subset_cons_self _ _)

theorem preorder_subset_all (id : Nat) (ancestors : List (Nat × Tree)) (ts : List Tree) {s : Site}
    (h : s ∈ preorderAll id ancestors ts) :
    preorder s.id s.ancestors s.node ⊆ preorderAll id ancestors ts := by
  cases ts with
  | nil => exact absurd h List.not_mem_nil
  | cons t ts =>
    rcases List.mem_append.mp h with h | h
    · exact List.Subset.trans (preorder_subset _ _ t h) (List.subset_append_left _ _)
    · exact List.Subset.trans (preorder_subset_all _ _ ts h) (List.subset_append_right _ _)

end

/-- The numbers of the children of a site: each is above the one before, and the first is the next number
after that of the site. -/
theorem pairwise_id_children (s : Site) : (s.children.map Site.id).Pairwise (· < ·) := by
  have hids : (List.range' (s.id + 1) (Tree.sizeAll s.node.children)).Pairwise (· < ·) :=
    List.pairwise_lt_range'
  rw [← map_id_preorderAll (s.id + 1) ((s.id, s.node) :: s.ancestors)] at hids
  exact hids.sublist ((siblings_sublist _ _ _).map Site.id)

theorem head?_id_children {s : Site} {n : Nat} (h : (s.children.map Site.id).head? = some n) :
    n = s.id + 1 := by
  rw [children] at h
  cases hts : s.node.children with
  | nil =>
    rw [hts] at h
    exact absurd h (Option.some_ne_none n).symm
  | cons t ts =>
    rw [hts] at h
    exact (Option.some.inj h).symm

end Site

namespace SyntaxTree

variable {tree : SyntaxTree} {s u : Site}

theorem child_mem_sites {c : Site} (hs : s ∈ tree.sites) (hc : c ∈ s.children) : c ∈ tree.sites :=
  Site.preorder_subset 0 [] tree.root hs (Site.mem_preorder_of_mem_children hc)

/-- A site that has a parent is one of its children, and the parent is a site of the tree as well. -/
theorem mem_children_parent {p : Site} (hs : s ∈ tree.sites) (hparent : s.parent? = some p) :
    p ∈ tree.sites ∧ s ∈ p.children := by
  rcases Site.child_of_mem_preorder 0 [] tree.root hs with rfl | ⟨q, hq, hmem⟩
  · exact absurd hparent (Option.some_ne_none p).symm
  · have hqp : q = p := Option.some.inj ((Site.parent?_of_mem_children hmem).symm.trans hparent)
    rw [← hqp]
    exact ⟨hq, hmem⟩

theorem parent?_eq_none_iff (hs : s ∈ tree.sites) : s.parent? = none ↔ s.id = 0 := by
  constructor
  · intro hnone
    rcases Site.child_of_mem_preorder 0 [] tree.root hs with rfl | ⟨q, -, hmem⟩
    · rfl
    · rw [Site.parent?_of_mem_children hmem] at hnone
      exact absurd hnone (Option.some_ne_none q)
  · intro hid
    rw [eq_of_id_eq hs (Site.mem_preorder_self 0 [] tree.root) hid]
    rfl

end SyntaxTree

/-! ### Nodes -/

namespace Arena

/-- The number of the parent of a node. -/
def parent? (nodes : List Node) (n : Nat) : Option Nat := nodes[n]?.bind Node.parent?

/-- The numbers of the children of a node. -/
def children (nodes : List Node) (n : Nat) : List Nat := (nodes[n]?.map Node.children).getD []

/-- Whether a node is in the subtree of another one: from `m` one comes to `n` by going from nodes to their
parents. -/
def Below (nodes : List Node) (m n : Nat) : Prop :=
  Relation.ReflTransGen (fun below above => parent? nodes below = some above) m n

/-- Whether the links of some nodes agree with each other and with the order of the nodes. -/
structure Linked (nodes : List Node) : Prop where
  /-- The first node is the root. -/
  root : ∃ root, nodes[0]? = some root ∧ root.kind = .sourceFile
  /-- All nodes but the root have a parent. -/
  orphan_iff : ∀ n, n < nodes.length → (parent? nodes n = none ↔ n = 0)
  /-- A node is among the children of its parent, once, and among those of no other node. -/
  count_children : ∀ p n, (children nodes p).count n = if parent? nodes n = some p then 1 else 0
  increasing : ∀ p, (children nodes p).Pairwise (· < ·)
  /-- The first child comes right after its parent. -/
  first_child : ∀ p n, (children nodes p).head? = some n → n = p + 1
  /-- The nodes of a subtree come one after the other. -/
  interval : ∀ n, n < nodes.length → ∃ stop, ∀ m, Below nodes m n ↔ n ≤ m ∧ m < stop

/-- From a child one comes back to its parent. -/
theorem Linked.parent?_of_child {nodes : List Node} (h : Linked nodes) {p i n : Nat}
    (hchild : (children nodes p)[i]? = some n) : parent? nodes n = some p := by
  have hpos := List.count_pos_iff.mpr (List.mem_of_getElem? hchild)
  by_contra hne
  rw [h.count_children, if_neg hne] at hpos
  exact absurd hpos (Nat.lt_irrefl 0)

variable {tree : SyntaxTree} {s u : Site}

theorem parent?_entries (hs : s ∈ tree.sites) :
    parent? (tree.sites.map Site.entry) s.id = s.parent?.map Site.id := by
  rw [parent?, List.getElem?_map, SyntaxTree.getElem?_sites_iff.mpr ⟨hs, rfl⟩]
  rfl

theorem children_entries (hs : s ∈ tree.sites) :
    children (tree.sites.map Site.entry) s.id = s.children.map Site.id := by
  rw [children, List.getElem?_map, SyntaxTree.getElem?_sites_iff.mpr ⟨hs, rfl⟩]
  rfl

theorem exists_site {n : Nat} (h : n < (tree.sites.map Site.entry).length) : ∃ s ∈ tree.sites, s.id = n := by
  rw [List.length_map] at h
  exact ⟨_, SyntaxTree.getElem?_sites_iff.mp (List.getElem?_eq_getElem h)⟩

/-- What is no node has no children. -/
theorem children_entries_or (tree : SyntaxTree) (p : Nat) :
    children (tree.sites.map Site.entry) p = [] ∨ ∃ s ∈ tree.sites, s.id = p := by
  by_cases hp : p < (tree.sites.map Site.entry).length
  · exact Or.inr (exists_site hp)
  · refine Or.inl ?_
    rw [children, List.getElem?_eq_none (Nat.le_of_not_lt hp)]
    rfl

theorem mem_children_iff {p n : Nat} :
    n ∈ children (tree.sites.map Site.entry) p ↔ parent? (tree.sites.map Site.entry) n = some p := by
  constructor
  · intro hn
    rcases children_entries_or tree p with hnil | ⟨s, hs, rfl⟩
    · rw [hnil] at hn
      exact absurd hn List.not_mem_nil
    · rw [children_entries hs] at hn
      obtain ⟨c, hc, rfl⟩ := List.mem_map.mp hn
      rw [parent?_entries (SyntaxTree.child_mem_sites hs hc), Site.parent?_of_mem_children hc]
      rfl
  · intro hparent
    have hlt : n < (tree.sites.map Site.entry).length := by
      by_contra hge
      rw [parent?, List.getElem?_eq_none (Nat.le_of_not_lt hge)] at hparent
      exact absurd hparent (Option.some_ne_none p).symm
    obtain ⟨s, hs, rfl⟩ := exists_site hlt
    rw [parent?_entries hs] at hparent
    obtain ⟨q, hq, rfl⟩ := Option.map_eq_some_iff.mp hparent
    obtain ⟨hmem, hchild⟩ := SyntaxTree.mem_children_parent hs hq
    rw [children_entries hmem]
    exact List.mem_map_of_mem hchild

theorem pairwise_children_entries (tree : SyntaxTree) (p : Nat) :
    (children (tree.sites.map Site.entry) p).Pairwise (· < ·) := by
  rcases children_entries_or tree p with hnil | ⟨s, hs, rfl⟩
  · rw [hnil]
    exact .nil
  · rw [children_entries hs]
    exact s.pairwise_id_children

theorem below_of_leadsUpTo (hu : u ∈ tree.sites) (h : u.LeadsUpTo s) :
    Below (tree.sites.map Site.entry) u.id s.id := by
  induction h using Relation.ReflTransGen.head_induction_on with
  | refl => exact .refl
  | head hparent _ ih =>
    refine .head ?_ (ih (SyntaxTree.mem_children_parent hu hparent).1)
    rw [parent?_entries hu, hparent]
    rfl

/-- The subtree of a node has the sites of its tree. -/
theorem below_iff {m : Nat} (hs : s ∈ tree.sites) :
    Below (tree.sites.map Site.entry) m s.id ↔
      m ∈ (Site.preorder s.id s.ancestors s.node).map Site.id := by
  rw [List.mem_map]
  constructor
  · intro h
    induction h using Relation.ReflTransGen.head_induction_on with
    | refl => exact ⟨s, Site.mem_preorder_self .., rfl⟩
    | head hparent _ ih =>
      obtain ⟨q, hq, rfl⟩ := ih
      have hmem := mem_children_iff.mpr hparent
      rw [children_entries (Site.preorder_subset 0 [] tree.root hs hq)] at hmem
      obtain ⟨c, hc, rfl⟩ := List.mem_map.mp hmem
      exact ⟨c, Site.preorder_subset _ _ _ hq (Site.mem_preorder_of_mem_children hc), rfl⟩
  · rintro ⟨u, hu, rfl⟩
    exact below_of_leadsUpTo (Site.preorder_subset 0 [] tree.root hs hu) (Site.leadsUpTo_of_mem _ _ _ hu)

/-- The sites of a tree are linked. -/
theorem linked_entries (hkind : tree.root.kind = .sourceFile) : Linked (tree.sites.map Site.entry) where
  root := by
    have hroot := SyntaxTree.getElem?_sites_iff.mpr ⟨Site.mem_preorder_self 0 [] tree.root, rfl⟩
    refine ⟨(Site.mk 0 tree.root []).entry, ?_, hkind⟩
    rw [List.getElem?_map, hroot]
    rfl
  orphan_iff := by
    intro n hn
    obtain ⟨s, hs, rfl⟩ := exists_site hn
    rw [parent?_entries hs, Option.map_eq_none_iff, SyntaxTree.parent?_eq_none_iff hs]
  count_children := by
    intro p n
    have hnodup : (children (tree.sites.map Site.entry) p).Nodup :=
      (pairwise_children_entries tree p).imp Nat.ne_of_lt
    rw [hnodup.count]
    exact if_congr mem_children_iff rfl rfl
  increasing := pairwise_children_entries tree
  first_child := by
    intro p n hn
    rcases children_entries_or tree p with hnil | ⟨s, hs, rfl⟩
    · rw [hnil] at hn
      exact absurd hn (Option.some_ne_none n).symm
    · rw [children_entries hs] at hn
      exact Site.head?_id_children hn
  interval := by
    intro n hn
    obtain ⟨s, hs, rfl⟩ := exists_site hn
    refine ⟨s.id + s.node.size, fun m => ?_⟩
    rw [below_iff hs, Site.map_id_preorder, List.mem_range'_1]

end Arena

/-- The nodes of a text are numbered in pre-order, and their links agree.  If the record of the text has fewer
events than a word has values, recording it in words meets no fault, and the nodes that are built from the
record are the sites of the tree of the text. -/
theorem nodes_are_linked_in_preorder (limit : Nat) (source : Text) :
    let sites := (parse limit source).sites
    ∃ r, record 0 limit source = .ok r ∧
      (r.events.length < UInt32.size →
        ∃ (r' : Recorder) (nodes : List Arena.Node),
          record UInt32.size limit source = .ok r' ∧ r'.events = r.events ∧
          Arena.build? UInt32.size source.byteLength r'.events = some nodes ∧
          nodes = sites.map Site.entry ∧ sites.map Site.id = List.range nodes.length ∧
          Arena.Linked nodes ∧
          ∀ p i n : Nat, (Arena.children nodes p)[i]? = some n → Arena.parent? nodes n = some p) ∧
      ∀ s ∈ sites, ∀ i c, s.child? i = some c → c ∈ sites ∧ c.parent? = some s := by
  intro sites
  obtain ⟨events, hwritten, hrecord⟩ := recordCounting_run limit source
  refine ⟨_, hrecord (Or.inl rfl) (Or.inl rfl), fun hlength => ?_, fun s hs i c hchild => ?_⟩
  · have hroom : UInt32.size = 0 ∨ events.length ≤ UInt32.size := Or.inr (Nat.le_of_lt hlength)
    have hlinked : Arena.Linked (sites.map Site.entry) := Arena.linked_entries rfl
    refine ⟨_, _, hrecord (Or.inl rfl) hroom, rfl, Arena.build?_of_written hwritten hroom, rfl, ?_, hlinked,
      fun p i n => hlinked.parent?_of_child⟩
    have hids := SyntaxTree.map_id_sites (parse limit source)
    have hcount := congrArg List.length hids
    rw [List.length_map, List.length_range] at hcount
    rw [List.length_map, hcount]
    exact hids
  · have hmem := List.mem_of_getElem? hchild
    exact ⟨SyntaxTree.child_mem_sites hs hmem, Site.parent?_of_mem_children hmem⟩

/-- A rule with a group, in the record of which there are tombstones. -/
theorem nodes_are_linked_in_preorder_group :
    let source : Text := "a = b / (c)".toList
    ∃ (r : Recorder) (nodes : List Arena.Node), record UInt32.size 1 source = .ok r ∧
      .start .tombstone ∈ r.events ∧ r.events.length < UInt32.size ∧
      Arena.build? UInt32.size source.byteLength r.events = some nodes ∧
      Arena.Linked nodes ∧ Arena.children nodes 7 = [8, 10, 11] ∧ Arena.parent? nodes 11 = some 7 := by
  intro source
  have hrecord : (record 0 1 source).map (fun r => (r.events.length, r.events.contains (.start .tombstone))) =
      .ok (29, true) := by decide +kernel
  obtain ⟨r, hr, hnodes, -⟩ := nodes_are_linked_in_preorder 1 source
  rw [hr] at hrecord
  obtain ⟨hlength, htombstone⟩ := Prod.mk.inj (Except.ok.inj hrecord)
  have hless : r.events.length < UInt32.size := by
    rw [hlength]
    decide
  obtain ⟨r', nodes, hr', hevents, hbuild, rfl, -, hlinked, hback⟩ := hnodes hless
  have hchildren : Arena.children ((parse 1 source).sites.map Site.entry) 7 = [8, 10, 11] := by
    decide +kernel
  refine ⟨r', _, hr', ?_, ?_, hbuild, hlinked, hchildren, hback 7 2 11 ?_⟩
  · rw [hevents]
    exact List.contains_iff_mem.mp htombstone
  · rw [hevents]
    exact hless
  · rw [hchildren]
    rfl

end Abnf
