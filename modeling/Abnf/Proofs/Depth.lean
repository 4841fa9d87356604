/-
The depth of trees.

A text may nest its brackets as deep as it likes: on no path of its tree are there more groups and options
than the nesting limit, and the tree is at most `4 * limit + 7` deep (`depth_is_bounded`).  So a recursion
over the tree needs a number of nested calls that the limit gives, however long the text is.

* `Tree.Low` bounds the groups and options on the paths of a tree, and its height;
* `Reader.Makes` says what all trees of a reader have in common, whatever tokens it is given.  A level of
  brackets is at most four nodes high: the brackets, an alternation, a concatenation and a repetition
  (`Grammar.low_alternation`);
* `Site.exists_low` carries the bounds from the root to every site;
* `Tree.recurse` is a recursion with a limited number of nested calls, and `Tree.recurse_eq_some` says that
  it needs no more of them than the tree is high.
-/
import Abnf.Proofs.TreeGrammar

namespace Abnf

/-! ### Low trees -/

namespace Tree

/-- Trees in which no path has more than `n` groups and options, or goes down more than `h` times. -/
inductive Low : Nat → Nat → Tree → Prop
  | leaf {n h : Nat} {t : Token} : Low n h (leaf t)
  | node {n h : Nat} {kind : Kind} {span : Span} {ts : List Tree} : kind.isBracketed = false →
      (∀ t ∈ ts, Low n h t) → Low n (h + 1) (node kind span ts)
  | bracketed {n h : Nat} {kind : Kind} {span : Span} {ts : List Tree} : kind.isBracketed = true →
      (∀ t ∈ ts, Low n h t) → Low (n + 1) (h + 1) (node kind span ts)

theorem Low.mono {n h n' h' : Nat} {x : Tree} (hx : Low n h x) (hn : n ≤ n') (hh : h ≤ h') :
    Low n' h' x := by
  induction hx generalizing n' h' with
  | leaf => exact .leaf
  | node hkind _ ih =>
    obtain ⟨h', rfl⟩ := Nat.exists_eq_add_one.mpr (Nat.zero_lt_of_lt hh)
    exact .node hkind fun t ht => ih t ht hn (Nat.le_of_succ_le_succ hh)
  | bracketed hkind _ ih =>
    obtain ⟨n', rfl⟩ := Nat.exists_eq_add_one.mpr (Nat.zero_lt_of_lt hn)
    obtain ⟨h', rfl⟩ := Nat.exists_eq_add_one.mpr (Nat.zero_lt_of_lt hh)
    exact .bracketed hkind fun t ht => ih t ht (Nat.le_of_succ_le_succ hn) (Nat.le_of_succ_le_succ hh)

theorem low_nameNode (n h : Nat) (t : Token) : Low n (h + 1) (Grammar.nameNode t) := by
  have hkind : (Grammar.nameNode t).kind.isBracketed = false := by
    unfold Grammar.nameNode
    split <;> rfl
  refine .node hkind fun x hx => ?_
  rw [List.mem_singleton.mp hx]
  exact .leaf

end Tree

/-! ### What readers make -/

namespace Reader

/-- Whether all trees that a reader makes have a property. -/
def Makes (P : Tree → Prop) (r : Reader) : Prop := ∀ ts, ∀ x ∈ (r.read ts).1, P x

namespace Makes

variable {P Q : Tree → Prop} {r s : Reader}

theorem mono (hr : Makes P r) (h : ∀ x, P x → Q x) : Makes Q r :=
  fun ts x hx => h x (hr ts x hx)

theorem nothing : Makes P nothing := fun _ _ hx => absurd hx List.not_mem_nil

theorem seq (hr : Makes P r) (hs : Makes P s) : Makes P (seq r s) := by
  intro ts x hx
  rw [seq_read] at hx
  rcases List.mem_append.mp hx with hx | hx
  · exact hr _ x hx
  · exact hs _ x hx

theorem choose {p : List Token → Bool} (hr : Makes P r) (hs : Makes P s) : Makes P (choose p r s) := by
  intro ts x hx
  cases hp : p ts with
  | true =>
    rw [choose_pos hp] at hx
    exact hr ts x hx
  | false =>
    rw [choose_neg hp] at hx
    exact hs ts x hx

theorem readParts {p : List Token → Bool} {c : Consumes p r} (hr : Makes P r) (ts : List Token) :
    ∀ x ∈ (readParts p r c ts).1.flatten, P x := by
  intro x hx
  obtain ⟨us, -, hx⟩ := mem_readParts hx
  exact hr us x hx

theorem many {p : List Token → Bool} {c : Consumes p r} (hr : Makes P r) : Makes P (many p r c) :=
  fun ts => hr.readParts ts

/-- Comments are leaves, and so is a token unless it is made into another tree. -/
theorem comments (hleaf : ∀ t, P (.leaf t)) : Makes P comments := by
  intro ts x hx
  obtain ⟨t, rfl, -⟩ := mem_comments hx
  exact hleaf t

theorem single {tree : Token → Tree} {h : ∀ t, (tree t).leaves = [t]} (hleaf : ∀ t, P (.leaf t))
    (htree : ∀ t, P (tree t)) : Makes P (single tree h) := by
  intro ts x hx
  cases hus : (Reader.comments.read ts).2 with
  | nil =>
    have hread : (Reader.single tree h).read ts = ((Reader.comments.read ts).1, []) := by
      simp only [Reader.comments] at hus
      simp [Reader.single, Reader.comments, hus]
    rw [hread] at hx
    exact comments hleaf ts x hx
  | cons t us =>
    rw [single_read hus, List.mem_append, List.mem_singleton] at hx
    rcases hx with hx | rfl
    · exact comments hleaf ts x hx
    · exact htree t

/-- A node of which the children are those that a reader makes. -/
theorem node {kind : Kind} (hr : Makes P r) (hleaf : ∀ t, Q (.leaf t))
    (h : ∀ trees, (∀ x ∈ trees, P x) → Q (.branch kind trees)) : Makes Q (node kind r) := by
  refine seq (comments hleaf) fun ts x hx => ?_
  rw [List.mem_singleton.mp hx]
  exact h _ (hr ts)

end Makes

end Reader

namespace Tree

/-- Parts that may be wrapped in a node that has no brackets. -/
theorem low_wrapParts {n h : Nat} {kind : Kind} (hkind : kind.isBracketed = false)
    {parts : List (List Tree)} (hparts : ∀ x ∈ parts.flatten, Low n h x) :
    ∀ x ∈ Reader.wrapParts kind parts, Low n (h + 1) x := by
  unfold Reader.wrapParts
  split
  · intro x hx
    rw [List.mem_singleton.mp hx]
    exact .node hkind hparts
  · intro x hx
    exact (hparts x hx).mono (Nat.le_refl n) (Nat.le_succ h)

end Tree

namespace Grammar

open Reader Abnf.Tree

section

variable {n h : Nat}

theorem low_token : Makes (Low n h) token := Makes.single (fun _ => .leaf) fun _ => .leaf

theorem low_ifAt (kind : Kind) : Makes (Low n h) (ifAt kind) := low_token.choose .nothing

theorem low_comments : Makes (Low n h) comments := Makes.comments fun _ => .leaf

theorem low_name : Makes (Low n (h + 1)) name :=
  Makes.single (fun _ => .leaf) fun t => low_nameNode n h t

theorem low_node {kind : Kind} (hkind : kind.isBracketed = false) {r : Reader}
    (hr : Makes (Low n h) r) : Makes (Low n (h + 1)) (node kind r) :=
  hr.node (fun _ => .leaf) fun _ htrees => .node hkind htrees

theorem low_repeatCount : Makes (Low n (h + 1)) repeatCount :=
  low_node rfl ((low_ifAt _).seq ((low_token.seq (low_ifAt _)).choose .nothing))

/-! ### Levels of brackets -/

/-- What the readers of an element may rely on about the reader for what brackets enclose. -/
inductive LowBody : Nat → Option (Thunk Reader) → Prop
  | none : LowBody 0 none
  | some {n : Nat} {r : Thunk Reader} : Makes (Low n (4 * n + 4)) r.get → LowBody (n + 1) (some r)

variable {body : Option (Thunk Reader)}

theorem low_bracketed {kind opener close : Kind} (hb : Brackets kind opener close)
    (hbody : LowBody n body) : Makes (Low n (4 * n + 1)) (bracketed kind close body) := by
  have hkind : kind.isBracketed = true := by cases hb <;> rfl
  cases hbody with
  | none =>
    -- at the limit a bracket encloses nothing: it becomes an error of its own
    exact low_node rfl low_token
  | @some n r hr =>
    have henclosed : Makes (Low n (4 * n + 4)) (seq token (seq (delayed r) (ifAt close))) :=
      low_token.seq (Makes.seq hr (low_ifAt close))
    exact henclosed.node (fun _ => .leaf) fun _ htrees => .bracketed hkind htrees

theorem low_element (hbody : LowBody n body) : Makes (Low n (4 * n + 1)) (element body) :=
  low_name.choose <| (low_bracketed .group hbody).choose <|
    (low_bracketed .option hbody).choose <| low_token.choose .nothing

theorem low_repetition (hbody : LowBody n body) : Makes (Low n (4 * n + 2)) (repetition body) := by
  have helement := low_element hbody
  -- an element without a count stands for itself, one node lower
  refine Makes.choose (low_node rfl (low_repeatCount.seq helement)) (helement.mono fun x hx => ?_)
  exact hx.mono (Nat.le_refl _) (Nat.le_succ _)

theorem low_concatenation (hbody : LowBody n body) :
    Makes (Low n (4 * n + 3)) (concatenation body) := by
  refine low_comments.seq fun ts => ?_
  exact low_wrapParts rfl ((low_repetition hbody).readParts ts)

theorem low_alternationOver (hbody : LowBody n body) :
    Makes (Low n (4 * n + 4)) (alternationOver body) := by
  refine low_comments.seq fun ts => low_wrapParts rfl fun x hx => ?_
  rcases List.mem_append.mp hx with hx | hx
  · exact low_concatenation hbody ts x hx
  · exact (low_token.seq (low_concatenation hbody)).readParts _ x hx

end

/-- Every level of brackets adds four nodes to a path. -/
theorem low_alternation (n : Nat) : Makes (Low n (4 * n + 4)) (alternation n) := by
  induction n with
  | zero => exact low_alternationOver .none
  | succ n ih =>
    have hbody : LowBody (n + 1) (some (Thunk.mk fun _ => alternation n)) := .some ih
    exact low_alternationOver hbody

/-! ### Rules and other lines -/

theorem low_elements (limit : Nat) : Makes (Low limit (4 * limit + 4)) (elements limit) :=
  (low_alternation limit).seq
    (Makes.many ((low_node rfl low_token).seq (low_alternation limit)))

theorem low_ruleHead {n h : Nat} : Makes (Low n (h + 1)) ruleHead :=
  low_name.seq ((Makes.choose (low_node rfl low_token) .nothing).seq low_comments)

theorem low_rule (limit : Nat) : Makes (Low limit (4 * limit + 6)) (rule limit) := by
  intro ts x hx
  rw [List.mem_singleton.mp hx]
  refine .node rfl fun y hy => ?_
  rcases List.mem_append.mp hy with hy | hy
  · exact low_ruleHead ts y hy
  · rw [List.mem_singleton.mp hy]
    exact .node rfl (low_elements limit _)

theorem low_junk {n h : Nat} : Makes (Low n (h + 2)) junk := by
  have hitem : Makes (Low n (h + 1)) junkItem := low_name.choose low_token
  exact low_node rfl (hitem.seq hitem.many)

theorem low_ruleList (limit : Nat) : Makes (Low limit (4 * limit + 6)) (ruleList limit) :=
  (Makes.many (low_comments.seq ((low_rule limit).choose low_junk))).seq low_comments

end Grammar

/-- The tree of a text is no deeper than the limit allows. -/
theorem low_root (limit : Nat) (source : Text) :
    (parse limit source).root.Low limit (4 * limit + 7) :=
  .node rfl (Grammar.low_ruleList limit _)

/-! ### Paths -/

namespace Site

/-- The nodes on the path from the root to a site, from below. -/
def path (s : Site) : List Tree := s.node :: s.ancestors.map (·.2)

/-- What is left for the tree at a site is what its ancestors do not use. -/
theorem exists_low {limit height : Nat} {x : Tree} (h : x.Low limit height) {id : Nat} {s : Site}
    (hs : s ∈ preorder id [] x) :
    ∃ n k, s.node.Low n k ∧ s.levels + n ≤ limit ∧ s.ancestors.length + k ≤ height := by
  refine of_mem_preorder (Q := fun ancestors x => ∃ n k, x.Low n k ∧
    ancestors.countP (·.2.kind.isBracketed) + n ≤ limit ∧ ancestors.length + k ≤ height)
    ?_ id [] x ⟨limit, height, h, by simp, by simp⟩ hs
  rintro ancestors x y id ⟨n, k, hlow, hlevels, hlength⟩ hy
  cases hlow with
  | leaf => exact absurd hy List.not_mem_nil
  | @node n k kind span ts hkind hts =>
    refine ⟨n, k, hts y hy, ?_, ?_⟩
    · rw [List.countP_cons_of_neg (by simp [Tree.kind, hkind])]
      exact hlevels
    · rw [List.length_cons]
      omega
  | @bracketed n k kind span ts hkind hts =>
    -- the brackets use one of the levels that were left, and one step down
    refine ⟨n, k, hts y hy, ?_, ?_⟩
    · rw [List.countP_cons_of_pos (by exact hkind)]
      omega
    · rw [List.length_cons]
      omega

theorem countP_path (s : Site) :
    s.path.countP (·.kind.isBracketed) = s.levels + if s.node.kind.isBracketed then 1 else 0 := by
  rw [path, List.countP_cons, List.countP_map]
  rfl

/-- A path has no more groups and options than the limit. -/
theorem countP_path_le {limit : Nat} {source : Text} {s : Site} (hs : s ∈ (parse limit source).sites) :
    s.path.countP (·.kind.isBracketed) ≤ limit := by
  obtain ⟨n, k, hlow, hlevels, -⟩ := exists_low (low_root limit source) hs
  rw [countP_path]
  cases hnode : s.node with
  | leaf t =>
    -- the kind of a token is never that of a node
    have htoken : s.token? = some t := by rw [token?, hnode]
    have hmem : t ∈ Token.significant source := by
      rw [← filterMap_token?_sites limit source]
      exact List.mem_filterMap.mpr ⟨s, hs, htoken⟩
    have hkind : t.kind.isBracketed = false := by
      have hlex := Token.lexical_of_mem_significant hmem
      revert hlex
      cases t.kind <;> simp [Kind.isLexical, Kind.isBracketed]
    rw [Tree.kind, hkind]
    exact Nat.le_of_add_right_le hlevels
  | node kind span ts =>
    rw [hnode] at hlow
    cases hlow with
    | node hkind _ =>
      rw [Tree.kind, hkind]
      exact Nat.le_of_add_right_le hlevels
    | bracketed hkind _ =>
      rw [Tree.kind, hkind, if_pos rfl]
      omega

theorem length_ancestors_le {limit : Nat} {source : Text} {s : Site}
    (hs : s ∈ (parse limit source).sites) : s.ancestors.length ≤ 4 * limit + 7 := by
  obtain ⟨n, k, -, -, hlength⟩ := exists_low (low_root limit source) hs
  omega

end Site

/-! ### Nested calls -/

namespace Tree

section

variable {α : Type}

/-- A recursion over a tree that fails where more calls are nested than it may make. -/
def recurse (combine : Tree → List α → α) : Nat → Tree → Option α
  | 0, _ => none
  | calls + 1, x => (x.children.mapM (recurse combine calls)).map (combine x)

theorem mapM_eq_some_map {g : Tree → Option α} {f : Tree → α} {ts : List Tree}
    (h : ∀ t ∈ ts, g t = some (f t)) : ts.mapM g = some (ts.map f) := by
  induction ts with
  | nil => rfl
  | cons t ts ih =>
    have hts := ih fun u hu => h u (List.mem_cons_of_mem t hu)
    rw [List.mapM_cons, h t List.mem_cons_self, hts]
    rfl

/-- The height of a tree bounds the calls that are nested in a recursion over it. -/
theorem recurse_eq_some {combine : Tree → List α → α} {f : Tree → α}
    (hf : ∀ x, f x = combine x (x.children.map f)) {n h : Nat} {x : Tree} (hx : x.Low n h) :
    recurse combine (h + 1) x = some (f x) := by
  -- each node takes one call, and its children are lower by one
  induction hx with
  | leaf => rw [hf]; rfl
  | node _ _ ih | bracketed _ _ ih =>
    rw [recurse, children, mapM_eq_some_map ih, hf]
    rfl

end

/-- `hasError` of a tree from that of its children. -/
def errorStep (x : Tree) (below : List Bool) : Bool :=
  x.kind == .error || x.kind == .unknown || below.any id

/-- `sexp` of a tree from that of its children. -/
def sexpStep (x : Tree) (below : List String) : String :=
  "(" ++ x.kind.name ++ (x.children.zip below).foldr
    (fun (y, text) rest => (if y.kind.isNamed then " " ++ text else "") ++ rest) "" ++ ")"

theorem hasError_eq_errorStep (x : Tree) : x.hasError = errorStep x (x.children.map hasError) := by
  have hall : ∀ ts, anyError ts = (ts.map hasError).any id := by
    intro ts
    induction ts with
    | nil => rfl
    | cons t ts ih => rw [anyError, ih, List.map_cons, List.any_cons, id]
  cases x with
  | leaf t => exact (Bool.or_false _).symm
  | node kind span ts => rw [hasError, hall]; rfl

theorem sexp_eq_sexpStep (x : Tree) : x.sexp = sexpStep x (x.children.map sexp) := by
  have hall : ∀ ts, sexpAll ts = (ts.zip (ts.map sexp)).foldr
      (fun (y, text) rest => (if y.kind.isNamed then " " ++ text else "") ++ rest) "" := by
    intro ts
    induction ts with
    | nil => rfl
    | cons t ts ih => rw [sexpAll, ih]; rfl
  cases x with
  | leaf t => simp [sexp, sexpStep, children, kind]
  | node kind span ts => rw [sexp, hall]; rfl

end Tree

namespace Site

/-- The sites of a tree, once the id of the tree and its ancestors are known. -/
abbrev Visit := Nat → List (Nat × Tree) → List Site

/-- The visits of sibling trees one after the other; each site takes an id. -/
def visitAll (id : Nat) (ancestors : List (Nat × Tree)) : List Visit → List Site
  | [] => []
  | visit :: visits =>
    let here := visit id ancestors
    here ++ visitAll (id + here.length) ancestors visits

/-- `preorder` of a tree from that of its children. -/
def visitStep (x : Tree) (below : List Visit) : Visit := fun id ancestors =>
  ⟨id, x, ancestors⟩ :: visitAll (id + 1) ((id, x) :: ancestors) below

mutual

theorem length_preorder (id : Nat) (ancestors : List (Nat × Tree)) (x : Tree) :
    (preorder id ancestors x).length = x.size := by
  cases x with
  | leaf t => rfl
  | node kind span ts =>
    rw [preorder, List.length_cons, length_preorderAll, Tree.size, Nat.add_comm]

theorem length_preorderAll (id : Nat) (ancestors : List (Nat × Tree)) (ts : List Tree) :
    (preorderAll id ancestors ts).length = Tree.sizeAll ts := by
  cases ts with
  | nil => rfl
  | cons t ts =>
    rw [preorderAll, List.length_append, length_preorder, length_preorderAll, Tree.sizeAll]

end

theorem preorderAll_eq_visitAll (id : Nat) (ancestors : List (Nat × Tree)) (ts : List Tree) :
    preorderAll id ancestors ts =
      visitAll id ancestors (ts.map fun t id ancestors => preorder id ancestors t) := by
  induction ts generalizing id with
  | nil => rfl
  | cons t ts ih => rw [preorderAll, ih, List.map_cons, visitAll, length_preorder]

theorem preorder_eq_visitStep (x : Tree) :
    (fun id ancestors => preorder id ancestors x) =
      visitStep x (x.children.map fun t id ancestors => preorder id ancestors t) := by
  funext id ancestors
  cases x with
  | leaf t => rfl
  | node kind span ts => rw [preorder, preorderAll_eq_visitAll]; rfl

end Site

/-- On no path of a tree are there more groups and options than the nesting limit, and the tree is at most
`4 * limit + 7` deep.  So recursions over the tree, as those that write it, look for errors in it and visit
it for the index, never nest more calls than the limit tells, whatever the text is. -/
theorem depth_is_bounded (limit : Nat) (source : Text) :
    let tree := parse limit source
    (∀ s ∈ tree.sites,
      s.path.countP (·.kind.isBracketed) ≤ limit ∧ s.ancestors.length ≤ 4 * limit + 7) ∧
    tree.root.recurse Tree.sexpStep (4 * limit + 8) = some tree.root.sexp ∧
    tree.root.recurse Tree.errorStep (4 * limit + 8) = some tree.root.hasError ∧
    (tree.root.recurse Site.visitStep (4 * limit + 8)).map (· 0 []) = some tree.sites := by
  intro tree
  have hroot : tree.root.Low limit (4 * limit + 7) := low_root limit source
  refine ⟨fun s hs => ⟨Site.countP_path_le hs, Site.length_ancestors_le hs⟩,
    Tree.recurse_eq_some Tree.sexp_eq_sexpStep hroot,
    Tree.recurse_eq_some Tree.hasError_eq_errorStep hroot, ?_⟩
  rw [Tree.recurse_eq_some Site.preorder_eq_visitStep hroot]
  rfl

/-- The deepest tree with one level of brackets: its last name is on a path of all nodes that a rule can
have. -/
theorem depth_is_bounded_attained :
    let tree := parse 1 "a = b / c 1(d / e 1f)".toList
    ∃ s ∈ tree.sites, s.path.countP (·.kind.isBracketed) = 1 ∧ s.ancestors.length = 4 * 1 + 7 ∧
      (s.path.countP (·.kind.isBracketed) ≤ 1 ∧ s.ancestors.length ≤ 4 * 1 + 7) := by
  intro tree
  have hlast : tree.sites.find? (fun s => s.path.countP (·.kind.isBracketed) == 1 &&
      s.ancestors.length == 11) |>.isSome := by decide +kernel
  obtain ⟨s, hs⟩ := Option.isSome_iff_exists.mp hlast
  have hmem := List.mem_of_find?_eq_some hs
  have hdeep := List.find?_some hs
  rw [Bool.and_eq_true, beq_iff_eq, beq_iff_eq] at hdeep
  exact ⟨s, hmem, hdeep.1, hdeep.2, (depth_is_bounded 1 _).1 s hmem⟩

end Abnf
