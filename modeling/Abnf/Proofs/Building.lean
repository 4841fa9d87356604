/-
Building a tree from its record.

The builder goes through the record of a tree and leaves the nodes of the tree in the order of its sites, each
with the numbers of its parent and its children (`Arena.Builder.run_trees`).  While it is in a node, the node
has no span and not all of its children, so what one tree adds is told in two parts: the nodes of the tree, and
its number, which goes to the innermost open node (`Arena.Builder.grown`).

The builder tells the span of a node from the spans of its children and, if there are none, from the last token
before it.  `Tree.Laid` says that the nodes of a tree have these spans.
-/
import Abnf.Proofs.Numbering
import Abnf.Proofs.Occurrence
import Abnf.Proofs.Recording
import Abnf.Proofs.Spans

namespace Abnf

/-- Where the last of some tokens stops, after a token that stops at an offset. -/
def Token.lastStop (stop : Nat) (ts : List Token) : Nat := (ts.getLast?.map (·.span.stop)).getD stop

theorem Token.lastStop_append (stop : Nat) (ts us : List Token) :
    lastStop stop (ts ++ us) = lastStop (lastStop stop ts) us := by
  rw [lastStop, lastStop, lastStop, List.getLast?_append]
  cases us.getLast? <;> rfl

/-! ### Spans -/

namespace Tree

mutual

/-- Whether the nodes of a tree, after a token that stops at an offset, span their children, and those without
children stand where the last token before them stops. -/
def Laid (stop : Nat) : Tree → Prop
  | leaf _ => True
  | node _ span children => span = spanOf children stop ∧ LaidAll stop children

/-- Whether this holds of some trees, one after the other. -/
def LaidAll (stop : Nat) : List Tree → Prop
  | [] => True
  | t :: ts => Laid stop t ∧ LaidAll (Token.lastStop stop t.leaves) ts

end

theorem spanOf_lastStop (ts : List Tree) (stop : Nat) :
    spanOf ts (Token.lastStop stop (leavesAll ts)) = spanOf ts stop := by
  by_cases hts : ts = []
  · rw [hts]
    rfl
  · exact spanOf_of_ne_nil hts _ _

theorem leavesAll_singleton (t : Tree) : leavesAll [t] = t.leaves := List.append_nil _

theorem laidAll_of_forall {ts : List Tree} (h : ∀ t ∈ ts, ∀ stop, t.Laid stop) (stop : Nat) :
    LaidAll stop ts := by
  induction ts generalizing stop with
  | nil => trivial
  | cons t ts ih =>
    exact ⟨h t List.mem_cons_self stop, ih (fun u hu => h u (List.mem_cons_of_mem _ hu)) _⟩

theorem laidAll_append {stop : Nat} {ts us : List Tree} (h : LaidAll stop ts)
    (h' : LaidAll (Token.lastStop stop (leavesAll ts)) us) : LaidAll stop (ts ++ us) := by
  induction ts generalizing stop with
  | nil => exact h'
  | cons t ts ih =>
    refine ⟨h.1, ih h.2 ?_⟩
    rwa [← Token.lastStop_append, ← leavesAll_cons]

theorem Solid.laid {x : Tree} (h : x.Solid) (stop : Nat) : x.Laid stop := by
  induction h generalizing stop with
  | leaf t => trivial
  | branch hne _ ih => exact ⟨spanOf_of_ne_nil hne 0 stop, laidAll_of_forall ih stop⟩

theorem Placed.laid {x : Tree} (h : x.Placed) (stop : Nat) : x.Laid stop := by
  cases h with
  | solid h => exact h.laid stop
  | @rule ts hne h =>
    refine ⟨spanOf_of_ne_nil (List.append_ne_nil_of_left_ne_nil hne _) 0 stop, ?_⟩
    refine laidAll_append (laidAll_of_forall (fun t ht => (h t ht).laid) stop) ⟨⟨?_, trivial⟩, trivial⟩
    -- the empty body stands where the last token of the rule stops
    obtain ⟨first, last, -, hlast, hspan⟩ :=
      spansLeaves_branch .rule hne fun t ht => (h t ht).spansLeaves
    have hspan : spanOf ts 0 = ⟨first.start, last.span.stop⟩ := hspan
    rw [leaves_branch] at hlast
    rw [hspan, Token.lastStop, hlast]
    rfl

mutual

theorem size_le_length_events (t : Tree) : t.size ≤ t.events.length := by
  cases t with
  | leaf token => exact Nat.le_refl _
  | node kind span children =>
    have hle := sizeAll_le_length_eventsAll children
    rw [size, events, List.length_cons, List.length_append]
    omega

theorem sizeAll_le_length_eventsAll (ts : List Tree) : sizeAll ts ≤ (eventsAll ts).length := by
  cases ts with
  | nil => exact Nat.le_refl _
  | cons t ts =>
    have hle := size_le_length_events t
    have hle' := sizeAll_le_length_eventsAll ts
    rw [sizeAll, eventsAll, List.length_append]
    omega

end

end Tree

/-! ### Nodes -/

/-- A site as a node of an arena, with some span. -/
def Site.entryOver (s : Site) (span : Span) : Arena.Node :=
  ⟨s.node.kind, span, s.parent?.map Site.id, s.children.map Site.id⟩

/-- A site as a node of an arena. -/
def Site.entry (s : Site) : Arena.Node := s.entryOver s.node.span

theorem Site.parent?_map_id (s : Site) : s.parent?.map Site.id = s.ancestors.head?.map Prod.fst := by
  obtain ⟨id, node, ancestors⟩ := s
  cases ancestors <;> rfl

/-- The sites below a site. -/
def Site.below (s : Site) : List Site :=
  preorderAll (s.id + 1) ((s.id, s.node) :: s.ancestors) s.node.children

namespace Arena

theorem modify_append_left {α : Type} {l : List α} {i : Nat} (h : i < l.length) (more : List α)
    (f : α → α) : (l ++ more).modify i f = l.modify i f ++ more := by
  induction l generalizing i with
  | nil => exact absurd h (Nat.not_lt_zero i)
  | cons a l ih =>
    cases i with
    | zero => rfl
    | succ i =>
      rw [List.cons_append, List.modify_succ_cons, List.modify_succ_cons, ih (Nat.lt_of_succ_lt_succ h)]
      rfl

theorem modify_append_cons {α : Type} (l : List α) (a : α) (more : List α) (f : α → α) :
    (l ++ a :: more).modify l.length f = l ++ f a :: more := by
  induction l with
  | nil => rfl
  | cons b l ih =>
    rw [List.cons_append, List.length_cons, List.modify_succ_cons, ih]
    rfl

namespace Builder

/-- The nodes, of which the innermost open one has got some more children. -/
def adopted (b : Builder) (ids : List Nat) : List Node :=
  match b.opened with
  | [] => b.nodes
  | parent :: _ => b.nodes.modify parent fun p => { p with children := p.children ++ ids }

/-- A builder after some trees. -/
def grown (b : Builder) (ancestors : List (Nat × Tree)) (ts : List Tree) : Builder :=
  { b with
    nodes := b.adopted ((Site.siblings ancestors b.nodes.length ts).map Site.id) ++
      (Site.preorderAll b.nodes.length ancestors ts).map Site.entry
    lastStop := Token.lastStop b.lastStop (Tree.leavesAll ts) }

/-- Whether a builder is below some ancestors and can tell the places of some more nodes apart. -/
structure Ready (b : Builder) (ancestors : List (Nat × Tree)) (count : Nat) : Prop where
  opened : b.opened.head? = ancestors.head?.map Prod.fst
  inside : ∀ parent, b.opened.head? = some parent → parent < b.nodes.length
  room : b.words = 0 ∨ b.nodes.length + count ≤ b.words

variable {b : Builder} {ancestors : List (Nat × Tree)}

theorem Ready.mono {m n : Nat} (h : b.Ready ancestors n) (hle : m ≤ n) : b.Ready ancestors m where
  opened := h.opened
  inside := h.inside
  room := by
    rcases h.room with hroom | hroom
    · exact Or.inl hroom
    · exact Or.inr (by omega)

theorem Ready.next_eq {n : Nat} (h : b.Ready ancestors (n + 1)) : b.next = b.nodes.length := by
  rcases h.room with hroom | hroom
  · rw [next, hroom, Nat.mod_zero]
  · exact Nat.mod_eq_of_lt (by omega)

theorem length_adopted (b : Builder) (ids : List Nat) : (b.adopted ids).length = b.nodes.length := by
  rw [adopted]
  split
  · rfl
  · exact List.length_modify _ _ _

theorem length_nodes_grown (b : Builder) (ancestors : List (Nat × Tree)) (ts : List Tree) :
    (b.grown ancestors ts).nodes.length = b.nodes.length + Tree.sizeAll ts := by
  have hids := congrArg List.length (Site.map_id_preorderAll b.nodes.length ancestors ts)
  rw [List.length_map, List.length_range'] at hids
  rw [grown, List.length_append, length_adopted, List.length_map, hids]

theorem Ready.grown {ts : List Tree} {count : Nat} (h : b.Ready ancestors (Tree.sizeAll ts + count)) :
    (b.grown ancestors ts).Ready ancestors count where
  opened := h.opened
  inside := by
    intro parent hparent
    have hlt := h.inside parent hparent
    rw [length_nodes_grown]
    omega
  room := by
    rcases h.room with hroom | hroom
    · exact Or.inl hroom
    · refine Or.inr ?_
      rw [length_nodes_grown]
      show _ ≤ b.words
      omega

theorem grown_nil (b : Builder) (ancestors : List (Nat × Tree)) : b.grown ancestors [] = b := by
  have hnodes : b.adopted [] ++ [] = b.nodes := by
    rw [List.append_nil, adopted]
    split
    · rfl
    · refine List.ext_getElem? fun i => ?_
      rw [List.getElem?_modify]
      cases b.nodes[i]? with
      | none => rfl
      | some n => simp
  show Builder.mk b.words (b.adopted [] ++ []) b.opened b.lastStop = b
  rw [hnodes]

/-- One tree after another. -/
theorem grown_cons {t : Tree} {ts : List Tree} {count : Nat} (h : b.Ready ancestors count) :
    (b.grown ancestors [t]).grown ancestors ts = b.grown ancestors (t :: ts) := by
  have hlength : (b.grown ancestors [t]).nodes.length = b.nodes.length + t.size := length_nodes_grown ..
  have hadopted : ∀ ids, (b.grown ancestors [t]).adopted ids = b.adopted (b.nodes.length :: ids) ++
      (Site.preorder b.nodes.length ancestors t).map Site.entry := by
    intro ids
    have hentries : Site.preorderAll b.nodes.length ancestors [t] =
        Site.preorder b.nodes.length ancestors t := List.append_nil _
    cases hopened : b.opened with
    | nil =>
      simp only [adopted, grown, hopened, hentries]
    | cons parent opened =>
      have hlt : parent < b.nodes.length := h.inside parent (by rw [hopened]; rfl)
      simp only [adopted, grown, hopened, hentries]
      rw [modify_append_left (by rw [List.length_modify]; exact hlt), List.modify_modify_eq]
      refine congrArg (· ++ _) (congrArg (List.modify b.nodes parent) (funext fun p => ?_))
      show Node.mk _ _ _ (p.children ++ [_] ++ ids) = _
      rw [List.append_assoc]
      rfl
  show Builder.mk b.words ((b.grown ancestors [t]).adopted _ ++ _) b.opened _ = _
  rw [hadopted, hlength]
  show _ = Builder.mk b.words (b.adopted (b.nodes.length :: _) ++
    (Site.preorder b.nodes.length ancestors t ++ _).map Site.entry) b.opened _
  rw [List.map_append, List.append_assoc]
  congr 1
  show Token.lastStop (Token.lastStop b.lastStop (t.leaves ++ [])) _ = _
  rw [List.append_nil, ← Token.lastStop_append]
  rfl

/-! ### Steps -/

/-- A node that is put behind the others is one more child of the innermost open one. -/
theorem push_eq {count : Nat} (h : b.Ready ancestors (count + 1)) (kind : Kind) (span : Span) :
    b.push kind span =
      { b with
        nodes := b.adopted [b.nodes.length] ++ [⟨kind, span, ancestors.head?.map Prod.fst, []⟩] } := by
  rw [push, h.next_eq, h.opened, adopted]
  cases hopened : b.opened with
  | nil => rfl
  | cons parent opened =>
    have hlt : parent < b.nodes.length := h.inside parent (by rw [hopened]; rfl)
    dsimp only
    rw [modify_append_left hlt]

theorem run_leaf {count : Nat} (h : b.Ready ancestors (count + 1)) (t : Token) :
    b.token t.kind t.span = b.grown ancestors [.leaf t] := by
  have hentry : (Site.mk b.nodes.length (.leaf t) ancestors).entry =
      ⟨t.kind, t.span, ancestors.head?.map Prod.fst, []⟩ := by
    rw [Site.entry, Site.entryOver, Site.parent?_map_id]
    rfl
  rw [token, push_eq h]
  show Builder.mk _ _ _ _ = Builder.mk _ (_ ++ [Site.entry _]) _ _
  rw [hentry]
  rfl

theorem startNode_eq {count : Nat} (h : b.Ready ancestors (count + 1)) (kind : Kind) :
    b.startNode kind =
      { b with
        nodes := b.adopted [b.nodes.length] ++
          [⟨kind, .empty b.lastStop, ancestors.head?.map Prod.fst, []⟩]
        opened := b.nodes.length :: b.opened } := by
  rw [startNode, push_eq h, h.next_eq]

theorem length_nodes_startNode {count : Nat} (h : b.Ready ancestors (count + 1)) (kind : Kind) :
    (b.startNode kind).nodes.length = b.nodes.length + 1 := by
  rw [startNode_eq h, List.length_append, length_adopted, List.length_singleton]

/-- The node that was opened is the innermost open one. -/
theorem Ready.startNode {count : Nat} (h : b.Ready ancestors (count + 1)) (kind : Kind) (t : Tree) :
    (b.startNode kind).Ready ((b.nodes.length, t) :: ancestors) count := by
  have heq := startNode_eq h kind
  have hlength := length_nodes_startNode h kind
  refine ⟨?_, fun parent hparent => ?_, ?_⟩
  · rw [heq]
    rfl
  · rw [heq] at hparent
    rw [hlength, ← Option.some.inj hparent]
    exact Nat.lt_succ_self _
  · have hwords : (b.startNode kind).words = b.words := by rw [heq]
    rw [hlength, hwords]
    rcases h.room with hroom | hroom
    · exact Or.inl hroom
    · exact Or.inr (by omega)

/-- A node that has been opened and has got its children, which stand behind it, but has no span. -/
theorem grown_startNode {s : Site} {count : Nat} (hid : s.id = b.nodes.length)
    (h : b.Ready s.ancestors (count + 1)) :
    (b.startNode s.node.kind).grown ((s.id, s.node) :: s.ancestors) s.node.children =
      { b with
        nodes := b.adopted [s.id] ++ s.entryOver (.empty b.lastStop) :: s.below.map Site.entry
        opened := s.id :: b.opened
        lastStop := Token.lastStop b.lastStop (Tree.leavesAll s.node.children) } := by
  have hlength := length_nodes_startNode h s.node.kind
  have hat := modify_append_cons (b.adopted [s.id])
    ⟨s.node.kind, .empty b.lastStop, s.ancestors.head?.map Prod.fst, []⟩ []
    fun p => { p with children := p.children ++ s.children.map Site.id }
  rw [length_adopted, ← hid] at hat
  have hadopted : (b.startNode s.node.kind).adopted (s.children.map Site.id) =
      b.adopted [s.id] ++ [s.entryOver (.empty b.lastStop)] := by
    rw [startNode_eq h, ← hid, Site.entryOver, Site.parent?_map_id]
    exact hat
  rw [← hid] at hlength
  rw [grown, hlength]
  show Builder.mk _ ((b.startNode _).adopted (s.children.map Site.id) ++ s.below.map Site.entry) _ _ = _
  rw [hadopted, List.append_assoc, startNode_eq h, hid]
  rfl

/-- The span of a node is told from its children. -/
theorem spanOf_children {s : Site} {front : List Node} {node : Node} (hfront : front.length = s.id)
    (hnodes : b.nodes = front ++ node :: s.below.map Site.entry) :
    b.spanOf (s.children.map Site.id) = Tree.spanOf s.node.children b.lastStop := by
  have hget : ∀ {c : Site}, c ∈ s.children → b.nodes[c.id]? = some c.entry := by
    intro c hc
    obtain ⟨hle, hplace⟩ := Site.getElem?_preorderAll ((Site.siblings_sublist _ _ _).subset hc)
    have hoffset : c.id - front.length = c.id - (s.id + 1) + 1 := by omega
    rw [hnodes, List.getElem?_append_right (by omega), hoffset, List.getElem?_cons_succ, List.getElem?_map,
      Site.below, hplace]
    rfl
  have htrees : s.children.map Site.node = s.node.children := Site.map_node_siblings ..
  rw [spanOf, Tree.spanOf, ← htrees, List.head?_map, List.getLast?_map, List.head?_map, List.getLast?_map]
  cases hfirst : s.children.head? with
  | none =>
    rw [List.head?_eq_none_iff] at hfirst
    rw [hfirst]
    rfl
  | some first =>
    cases hlast : s.children.getLast? with
    | none =>
      rw [List.getLast?_eq_none_iff] at hlast
      rw [hlast] at hfirst
      exact absurd hfirst (Option.some_ne_none first).symm
    | some last =>
      simp only [Option.map_some, Option.bind_some, hget (List.mem_of_head? hfirst),
        hget (List.mem_of_getLast? hlast)]
      rfl

theorem finishNode?_eq {s : Site} {front : List Node} {span : Span} {opened : List Nat}
    (hfront : front.length = s.id)
    (hnodes : b.nodes = front ++ s.entryOver span :: s.below.map Site.entry)
    (hopened : b.opened = s.id :: opened) :
    b.finishNode? = some { b with
      nodes := front ++
        s.entryOver (Tree.spanOf s.node.children b.lastStop) :: s.below.map Site.entry
      opened } := by
  have hat := modify_append_cons front (s.entryOver span) (s.below.map Site.entry)
    fun n => { n with span := b.spanOf n.children }
  rw [hfront, ← hnodes] at hat
  rw [finishNode?, hopened]
  show some (Builder.mk _ _ _ _) = _
  rw [hat, ← spanOf_children hfront hnodes]
  rfl

omit b in
theorem step?_start {kind : Kind} (h : kind ≠ .tombstone) (b : Builder) :
    b.step? (.start kind) = some (b.startNode kind) := by
  cases kind <;> first | rfl | exact absurd rfl h

/-- A node with its children, from its start to its end. -/
theorem run_node {s : Site} {count : Nat} (hid : s.id = b.nodes.length)
    (hevents : s.node.events = .start s.node.kind :: (Tree.eventsAll s.node.children ++ [.finish]))
    (h : b.Ready s.ancestors (count + 1)) (hkind : s.node.kind ≠ .tombstone)
    (hchildren : (Tree.eventsAll s.node.children).foldlM step? (b.startNode s.node.kind) =
      some ((b.startNode s.node.kind).grown ((s.id, s.node) :: s.ancestors) s.node.children)) :
    s.node.events.foldlM step? b =
      some { b with
        nodes := b.adopted [s.id] ++
          s.entryOver (Tree.spanOf s.node.children b.lastStop) :: s.below.map Site.entry
        lastStop := Token.lastStop b.lastStop (Tree.leavesAll s.node.children) } := by
  have hfront : (b.adopted [s.id]).length = s.id := by rw [length_adopted, hid]
  rw [grown_startNode hid h] at hchildren
  rw [hevents, List.foldlM_cons, step?_start hkind, Option.bind_eq_bind, Option.bind_some, List.foldlM_append,
    hchildren, Option.bind_eq_bind, Option.bind_some, List.foldlM_cons, step?,
    finishNode?_eq hfront rfl rfl, Tree.spanOf_lastStop]
  rfl

/-! ### Runs -/

mutual

/-- The builder goes through the record of a tree. -/
theorem run_tree (b : Builder) (ancestors : List (Nat × Tree)) (t : Tree)
    (hready : b.Ready ancestors t.size) (hlaid : t.Laid b.lastStop)
    (hstarts : .start .tombstone ∉ t.events) :
    t.events.foldlM step? b = some (b.grown ancestors [t]) := by
  cases t with
  | leaf token =>
    rw [← run_leaf hready token]
    rfl
  | node kind span children =>
    rw [Tree.size, Nat.add_comm] at hready
    rw [Tree.events, List.mem_cons, not_or] at hstarts
    have hkind : kind ≠ .tombstone := fun heq => hstarts.1 (by rw [heq])
    have hlast : (b.startNode kind).lastStop = b.lastStop := by rw [startNode_eq hready]
    have hchildren := run_trees (b.startNode kind) ((b.nodes.length, .node kind span children) :: ancestors)
      children (hready.startNode kind _) (by rw [hlast]; exact hlaid.2)
      fun h => hstarts.2 (List.mem_append_left _ h)
    have hrun := run_node (s := ⟨b.nodes.length, .node kind span children, ancestors⟩) rfl rfl hready hkind
      hchildren
    have hspan : Tree.spanOf children b.lastStop = span := hlaid.1.symm
    refine hrun.trans ?_
    rw [grown, Tree.leavesAll_singleton]
    show some (Builder.mk _ (_ ++ Site.entryOver _ (Tree.spanOf children b.lastStop) :: _) _ _) =
      some (Builder.mk _ (_ ++ (Site.preorder _ _ _ ++ []).map Site.entry) _ _)
    rw [hspan, List.append_nil]
    rfl

/-- The builder goes through the records of some trees, one after the other. -/
theorem run_trees (b : Builder) (ancestors : List (Nat × Tree)) (ts : List Tree)
    (hready : b.Ready ancestors (Tree.sizeAll ts)) (hlaid : Tree.LaidAll b.lastStop ts)
    (hstarts : .start .tombstone ∉ Tree.eventsAll ts) :
    (Tree.eventsAll ts).foldlM step? b = some (b.grown ancestors ts) := by
  cases ts with
  | nil =>
    rw [grown_nil]
    rfl
  | cons t ts =>
    rw [Tree.eventsAll, List.mem_append, not_or] at hstarts
    have hrun := run_tree b ancestors t (hready.mono (Nat.le_add_right _ _)) hlaid.1 hstarts.1
    have hready' : b.Ready ancestors (Tree.sizeAll [t] + Tree.sizeAll ts) := hready
    have hlast : (b.grown ancestors [t]).lastStop = Token.lastStop b.lastStop t.leaves := by
      rw [grown, Tree.leavesAll_singleton]
    have hrest := run_trees (b.grown ancestors [t]) ancestors ts hready'.grown
      (by rw [hlast]; exact hlaid.2) hstarts.2
    rw [Tree.eventsAll, List.foldlM_append, hrun, Option.bind_eq_bind, Option.bind_some, hrest,
      grown_cons hready]

end

/-- Tombstones are passed over. -/
theorem run_written (b : Builder) (events : List Event) :
    (Event.written events).foldlM step? b = events.foldlM step? b := by
  induction events generalizing b with
  | nil => rfl
  | cons e events ih =>
    by_cases he : e = .start .tombstone
    · rw [he, Event.written_tombstone, ih]
      rfl
    · rw [Event.written_cons he, List.foldlM_cons, List.foldlM_cons]
      exact congrArg _ (funext ih)

end Builder

/-- From a record of its tree, the nodes of a text are its sites. -/
theorem build?_of_written {words limit : Nat} {source : Text} {events : List Event}
    (hwritten : Event.written events = (parse limit source).root.events)
    (hroom : words = 0 ∨ events.length ≤ words) :
    build? words source.byteLength events = some ((parse limit source).sites.map Site.entry) := by
  have hstarts : .start .tombstone ∉ (parse limit source).root.events := by
    rw [← hwritten]
    exact Event.tombstone_not_mem_written events
  have hsize : (parse limit source).root.size ≤ events.length := by
    have hle := Tree.size_le_length_events (parse limit source).root
    rw [← hwritten] at hle
    exact Nat.le_trans hle (List.length_filter_le _ _)
  rw [build?, ← Builder.run_written, hwritten, SyntaxTree.sites]
  have hplaced : ∀ x ∈ (parse limit source).root.children, x.Placed :=
    fun x hx => Grammar.ruleList_placed limit hx
  generalize hroot : (parse limit source).root = root at *
  obtain ⟨ts, rfl⟩ : ∃ ts, root = .node .sourceFile ⟨0, source.byteLength⟩ ts := ⟨_, hroot.symm⟩
  rw [Tree.size, Nat.add_comm] at hsize
  have hready : (Builder.empty words).Ready [] (Tree.sizeAll ts + 1) := by
    refine ⟨rfl, fun parent h => absurd h (Option.some_ne_none parent).symm, hroom.imp_right fun h => ?_⟩
    show 0 + _ ≤ words
    omega
  have hchildren := Builder.run_trees ((Builder.empty words).startNode .sourceFile)
    [(0, .node .sourceFile ⟨0, source.byteLength⟩ ts)] ts (hready.startNode .sourceFile _)
    (Tree.laidAll_of_forall (fun x hx => (hplaced x hx).laid) _)
    fun h => hstarts (List.mem_cons_of_mem _ (List.mem_append_left _ h))
  have hrun := Builder.run_node (s := Site.root (.node .sourceFile ⟨0, source.byteLength⟩ ts)) rfl rfl hready
    Kind.noConfusion hchildren
  exact congrArg (Option.bind · _) hrun

end Arena

end Abnf
