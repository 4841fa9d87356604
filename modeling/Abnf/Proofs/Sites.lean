/-
Sites of a tree.

The sites of a tree in pre-order are those of the tree itself and of the trees below it.  So a site
other than the first is a child of another one (`child_of_mem_preorder`), and what holds of a tree
and is handed down from each node to its children holds at every site (`of_mem_preorder`).
-/
import Abnf.Syntax.Site

namespace Abnf.Site

theorem mem_preorderAll {id : Nat} {ancestors : List (Nat × Tree)} {ts : List Tree} {s : Site}
    (h : s ∈ preorderAll id ancestors ts) : ∃ t ∈ ts, ∃ id', s ∈ preorder id' ancestors t := by
  induction ts generalizing id with
  | nil => exact absurd h List.not_mem_nil
  | cons t ts ih =>
    rw [preorderAll, List.mem_append] at h
    rcases h with h | h
    · exact ⟨t, List.mem_cons_self, id, h⟩
    · obtain ⟨u, hu, id', h⟩ := ih h
      exact ⟨u, List.mem_cons_of_mem _ hu, id', h⟩

/-- The sites of each of some trees are among those of all of them. -/
theorem exists_preorder_subset {x : Tree} {ts : List Tree} (h : x ∈ ts) (id : Nat)
    (ancestors : List (Nat × Tree)) :
    ∃ id', ∀ s ∈ preorder id' ancestors x, s ∈ preorderAll id ancestors ts := by
  induction ts generalizing id with
  | nil => exact absurd h List.not_mem_nil
  | cons t ts ih =>
    rcases List.mem_cons.mp h with rfl | h
    · exact ⟨id, fun s hs => List.mem_append_left _ hs⟩
    · obtain ⟨id', hsub⟩ := ih h (id + t.size)
      exact ⟨id', fun s hs => List.mem_append_right _ (hsub s hs)⟩

theorem mem_siblings {ancestors : List (Nat × Tree)} {id : Nat} {ts : List Tree} {s : Site}
    (h : s ∈ siblings ancestors id ts) : s.node ∈ ts ∧ s.ancestors = ancestors := by
  induction ts generalizing id with
  | nil => exact absurd h List.not_mem_nil
  | cons t ts ih =>
    rcases List.mem_cons.mp h with rfl | h
    · exact ⟨List.mem_cons_self, rfl⟩
    · exact ⟨List.mem_cons_of_mem _ (ih h).1, (ih h).2⟩

/-- From a child one comes back by going to its parent. -/
theorem parent?_of_mem_children {s c : Site} (h : c ∈ s.children) : c.parent? = some s := by
  rw [parent?, (mem_siblings h).2]

mutual

/-- A site other than that of the tree itself is a child of another site of the tree. -/
theorem child_of_mem_preorder (id : Nat) (ancestors : List (Nat × Tree)) (x : Tree) {s : Site}
    (h : s ∈ preorder id ancestors x) :
    s = ⟨id, x, ancestors⟩ ∨ ∃ p ∈ preorder id ancestors x, s ∈ p.children := by
  cases x with
  | leaf token => exact Or.inl (List.mem_singleton.mp h)
  | node kind span children =>
    rw [preorder] at h ⊢
    rcases List.mem_cons.mp h with h | h
    · exact Or.inl h
    · right
      rcases child_of_mem_preorderAll _ _ children h with hmem | ⟨p, hp, hmem⟩
      · exact ⟨_, List.mem_cons_self, hmem⟩
      · exact ⟨p, List.mem_cons_of_mem _ hp, hmem⟩

theorem child_of_mem_preorderAll (id : Nat) (ancestors : List (Nat × Tree)) (ts : List Tree)
    {s : Site} (h : s ∈ preorderAll id ancestors ts) :
    s ∈ siblings ancestors id ts ∨ ∃ p ∈ preorderAll id ancestors ts, s ∈ p.children := by
  cases ts with
  | nil => exact absurd h List.not_mem_nil
  | cons t ts =>
    rw [preorderAll] at h ⊢
    rcases List.mem_append.mp h with h | h
    · rcases child_of_mem_preorder _ _ t h with rfl | ⟨p, hp, hmem⟩
      · exact Or.inl List.mem_cons_self
      · exact Or.inr ⟨p, List.mem_append_left _ hp, hmem⟩
    · rcases child_of_mem_preorderAll _ _ ts h with hmem | ⟨p, hp, hmem⟩
      · exact Or.inl (List.mem_cons_of_mem _ hmem)
      · exact Or.inr ⟨p, List.mem_append_right _ hp, hmem⟩

end

/-- A site other than that of the tree itself is below another site of the tree. -/
theorem parent_of_mem_preorder (id : Nat) (ancestors : List (Nat × Tree)) (x : Tree) {s : Site}
    (h : s ∈ preorder id ancestors x) :
    s = ⟨id, x, ancestors⟩ ∨
      ∃ p ∈ preorder id ancestors x, s.parent? = some p ∧ s.node ∈ p.node.children := by
  rcases child_of_mem_preorder id ancestors x h with h | ⟨p, hp, hmem⟩
  · exact Or.inl h
  · exact Or.inr ⟨p, hp, parent?_of_mem_children hmem, (mem_siblings hmem).1⟩

/-- Whether a property of trees below their ancestors is handed down from each node to its children. -/
def Inherited (Q : List (Nat × Tree) → Tree → Prop) : Prop :=
  ∀ {ancestors : List (Nat × Tree)} {x y : Tree} {id : Nat}, Q ancestors x → y ∈ x.children →
    Q ((id, x) :: ancestors) y

mutual

/-- What is handed down from each node to its children holds at every site. -/
theorem of_mem_preorder {Q : List (Nat × Tree) → Tree → Prop} (hdown : Inherited Q) (id : Nat)
    (ancestors : List (Nat × Tree)) (x : Tree) (h : Q ancestors x) {s : Site}
    (hs : s ∈ preorder id ancestors x) : Q s.ancestors s.node := by
  cases x with
  | leaf token =>
    rw [List.mem_singleton.mp hs]
    exact h
  | node kind span children =>
    rcases List.mem_cons.mp hs with rfl | hs
    · exact h
    · exact of_mem_preorderAll hdown _ _ children (fun y hy => hdown h hy) hs

theorem of_mem_preorderAll {Q : List (Nat × Tree) → Tree → Prop} (hdown : Inherited Q) (id : Nat)
    (ancestors : List (Nat × Tree)) (ts : List Tree) (h : ∀ x ∈ ts, Q ancestors x) {s : Site}
    (hs : s ∈ preorderAll id ancestors ts) : Q s.ancestors s.node := by
  cases ts with
  | nil => exact absurd hs List.not_mem_nil
  | cons t ts =>
    rcases List.mem_append.mp hs with hs | hs
    · exact of_mem_preorder hdown _ _ t (h t List.mem_cons_self) hs
    · exact of_mem_preorderAll hdown _ _ ts (fun x hx => h x (List.mem_cons_of_mem _ hx)) hs

end

end Abnf.Site
