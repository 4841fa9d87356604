/-
The numbers of the sites of a tree.

The sites of a tree that starts with a number have this number and the ones after it, without a gap
(`Site.map_id_preorder`).  So the number of a site is its place among the sites of the whole tree, and a
site is known by its number (`SyntaxTree.eq_of_id_eq`).
-/
import Abnf.Proofs.Sites
import Mathlib.Data.List.Nodup

namespace Abnf

namespace Site

mutual

/-- The sites of a tree are numbered one after the other. -/
theorem map_id_preorder (id : Nat) (ancestors : List (Nat × Tree)) (x : Tree) :
    (preorder id ancestors x).map Site.id = List.range' id x.size := by
  cases x with
  | leaf token => rfl
  | node kind span children =>
    rw [preorder, List.map_cons, map_id_preorderAll, Tree.size, Nat.add_comm 1,
      List.range'_succ]

theorem map_id_preorderAll (id : Nat) (ancestors : List (Nat × Tree)) (ts : List Tree) :
    (preorderAll id ancestors ts).map Site.id = List.range' id (Tree.sizeAll ts) := by
  cases ts with
  | nil => rfl
  | cons t ts =>
    rw [preorderAll, List.map_append, map_id_preorder, map_id_preorderAll, Tree.sizeAll,
      List.range'_append_1]

end

theorem mem_preorder_self (id : Nat) (ancestors : List (Nat × Tree)) (x : Tree) :
    ⟨id, x, ancestors⟩ ∈ preorder id ancestors x := by
  cases x with
  | leaf token => exact List.mem_singleton.mpr rfl
  | node kind span children => exact List.mem_cons_self

/-- Siblings are among the sites of their trees, in the same order. -/
theorem siblings_sublist (ancestors : List (Nat × Tree)) (id : Nat) (ts : List Tree) :
    (siblings ancestors id ts).Sublist (preorderAll id ancestors ts) := by
  induction ts generalizing id with
  | nil => exact .slnil
  | cons t ts ih =>
    have hself := List.singleton_sublist.mpr (mem_preorder_self id ancestors t)
    exact hself.append (ih (id + t.size))

/-- The place of a site among the sites of some trees is told by its number. -/
theorem getElem?_preorderAll {id : Nat} {ancestors : List (Nat × Tree)} {ts : List Tree} {s : Site}
    (h : s ∈ preorderAll id ancestors ts) :
    id ≤ s.id ∧ (preorderAll id ancestors ts)[s.id - id]? = some s := by
  obtain ⟨k, hk⟩ := List.mem_iff_getElem?.mp h
  have hid := congrArg (·[k]?) (map_id_preorderAll id ancestors ts)
  rw [List.getElem?_map, hk, Option.map_some] at hid
  obtain ⟨hlt, hget⟩ := List.getElem?_eq_some_iff.mp hid.symm
  rw [List.getElem_range', Nat.one_mul] at hget
  have hplace : s.id - id = k := by omega
  rw [hplace]
  exact ⟨by omega, hk⟩

end Site

namespace SyntaxTree

variable {tree : SyntaxTree}

theorem map_id_sites (tree : SyntaxTree) : tree.sites.map Site.id = List.range tree.root.size := by
  rw [sites, Site.map_id_preorder, List.range_eq_range']

/-- The place of a site among the sites is its number. -/
theorem getElem?_sites_iff {n : Nat} {s : Site} : tree.sites[n]? = some s ↔ s ∈ tree.sites ∧ s.id = n := by
  have hsites : Site.preorderAll 0 [] [tree.root] = tree.sites := List.append_nil _
  constructor
  · intro h
    have hid := congrArg (·[n]?) (map_id_sites tree)
    rw [List.getElem?_map, h, Option.map_some] at hid
    obtain ⟨hlt, hget⟩ := List.getElem?_eq_some_iff.mp hid.symm
    rw [List.getElem_range] at hget
    exact ⟨List.mem_of_getElem? h, hget.symm⟩
  · rintro ⟨hs, rfl⟩
    rw [← hsites] at hs ⊢
    exact (Site.getElem?_preorderAll hs).2

theorem pairwise_id_sites (tree : SyntaxTree) : tree.sites.Pairwise fun s s' => s.id < s'.id := by
  have hids := List.pairwise_lt_range (n := tree.root.size)
  rw [← map_id_sites] at hids
  exact List.pairwise_map.mp hids

/-- A site is known by its number. -/
theorem eq_of_id_eq {s s' : Site} (hs : s ∈ tree.sites) (hs' : s' ∈ tree.sites)
    (hid : s.id = s'.id) : s = s' := by
  have hnodup : (tree.sites.map Site.id).Nodup := by
    rw [map_id_sites]
    exact List.nodup_range
  exact List.inj_on_of_nodup_map hnodup hs hs' hid

end SyntaxTree

end Abnf
