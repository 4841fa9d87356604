/-
S-expressions and the trees that they show.

An S-expression shows the named nodes of a tree: `Tree.named?` is the tree of these nodes, which has kinds and
nesting and nothing else.  Only leaves are not named (`Tree.Composed`), so that no named node is lost with a
node around it (`Site.kinds_preorder`).

The S-expression of a tree is that of its named nodes (`Tree.sexp_of_named?`), and it can be read again in one
pass: `NamedTree.ofSexp?` goes through the characters with a stack of the nodes that are open.  The names of
named nodes hold no bracket and no space, which end them, and no two of them are the same.  So reading gives
back the tree that was written (`NamedTree.ofSexp?_sexp`), and no two trees are written alike
(`sexp_determines_named`).
-/
import Abnf.Proofs.Depth

namespace Abnf

/-- A kind of which the nodes are shown in an S-expression. -/
structure NamedKind where
  kind : Kind
  isNamed : kind.isNamed = true
deriving DecidableEq

/-- A tree of named nodes. -/
inductive NamedTree where
  | node (kind : NamedKind) (children : List NamedTree)

/-- The name under which a kind is shown. -/
def NamedKind.name (kind : NamedKind) : String := kind.kind.name

namespace NamedTree

mutual

/-- The S-expression of a tree. -/
def sexp : NamedTree → String
  | node kind children => "(" ++ kind.name ++ sexpAll children ++ ")"

/-- The S-expressions of some trees, each after a space. -/
def sexpAll : List NamedTree → String
  | [] => ""
  | t :: ts => " " ++ sexp t ++ sexpAll ts

end

mutual

/-- The kinds of the nodes of a tree in pre-order. -/
def kinds : NamedTree → List Kind
  | node kind children => kind.kind :: kindsAll children

/-- The kinds of the nodes of some trees in pre-order. -/
def kindsAll : List NamedTree → List Kind
  | [] => []
  | t :: ts => kinds t ++ kindsAll ts

end

theorem kindsAll_append (ts us : List NamedTree) : kindsAll (ts ++ us) = kindsAll ts ++ kindsAll us := by
  induction ts with
  | nil => rfl
  | cons t ts ih => rw [List.cons_append, kindsAll, kindsAll, ih, List.append_assoc]

end NamedTree

/-! ### Named nodes -/

namespace Tree

mutual

/-- The named nodes of a tree as a tree, if it is named itself. -/
def named? : Tree → Option NamedTree
  | leaf token => if h : token.kind.isNamed = true then some (.node ⟨token.kind, h⟩ []) else none
  | node kind _ children =>
    if h : kind.isNamed = true then some (.node ⟨kind, h⟩ (namedAll children)) else none

/-- The named ones of some trees, with the named nodes below them. -/
def namedAll : List Tree → List NamedTree
  | [] => []
  | t :: ts => (named? t).toList ++ namedAll ts

end

theorem named?_eq_none_iff {t : Tree} : t.named? = none ↔ t.kind.isNamed = false := by
  cases t with
  | leaf token => simp [named?, kind]
  | node kind span children => simp [named?, Tree.kind]

mutual

/-- An S-expression is that of the named nodes. -/
theorem sexp_of_named? (t : Tree) {n : NamedTree} (h : t.named? = some n) : t.sexp = n.sexp := by
  cases t with
  | leaf token =>
    rw [named?] at h
    split at h
    · rw [← Option.some.inj h, sexp, NamedTree.sexp, NamedTree.sexpAll, String.append_empty]
      rfl
    · exact absurd h (Option.some_ne_none n).symm
  | node kind span children =>
    rw [named?] at h
    split at h
    · rw [← Option.some.inj h, sexp, NamedTree.sexp, sexpAll_eq children]
      rfl
    · exact absurd h (Option.some_ne_none n).symm

theorem sexpAll_eq (ts : List Tree) : sexpAll ts = NamedTree.sexpAll (namedAll ts) := by
  cases ts with
  | nil => rfl
  | cons t ts =>
    rw [sexpAll, namedAll, sexpAll_eq ts]
    cases hn : t.named? with
    | none =>
      rw [named?_eq_none_iff.mp hn, if_neg Bool.false_ne_true, String.empty_append]
      rfl
    | some n =>
      have hkind : t.kind.isNamed = true := by
        by_contra hnot
        rw [named?_eq_none_iff.mpr (Bool.eq_false_iff.mpr hnot)] at hn
        exact absurd hn (Option.some_ne_none n).symm
      rw [hkind, if_pos rfl, sexp_of_named? t hn]
      rfl

end

/-- Trees of which all nodes but the leaves are named. -/
inductive Composed : Tree → Prop
  | leaf (t : Token) : Composed (leaf t)
  | node {kind : Kind} {span : Span} {ts : List Tree} : kind.isNamed = true → (∀ t ∈ ts, Composed t) →
      Composed (node kind span ts)

theorem composed_nameNode (t : Token) : Composed (Grammar.nameNode t) := by
  have hkind : (Grammar.nameNode t).kind.isNamed = true := by
    unfold Grammar.nameNode
    split <;> rfl
  refine .node hkind fun x hx => ?_
  rw [List.mem_singleton.mp hx]
  exact .leaf t

theorem composed_wrapParts {kind : Kind} (hkind : kind.isNamed = true) {parts : List (List Tree)}
    (hparts : ∀ x ∈ parts.flatten, Composed x) : ∀ x ∈ Reader.wrapParts kind parts, Composed x := by
  unfold Reader.wrapParts
  split
  · intro x hx
    rw [List.mem_singleton.mp hx]
    exact .node hkind hparts
  · exact hparts

end Tree

namespace Site

mutual

/-- In pre-order, the named nodes of a tree are those of the tree of named nodes. -/
theorem kinds_preorder (id : Nat) (ancestors : List (Nat × Tree)) (t : Tree) (h : t.Composed) :
    ((preorder id ancestors t).map (·.node.kind)).filter Kind.isNamed =
      NamedTree.kindsAll t.named?.toList := by
  cases h with
  | leaf token =>
    by_cases hkind : token.kind.isNamed = true
    · simp [preorder, Tree.kind, Tree.named?, hkind, NamedTree.kindsAll, NamedTree.kinds]
    · simp [preorder, Tree.kind, Tree.named?, hkind, NamedTree.kindsAll]
  | @node kind span ts hkind hts =>
    have hbelow := kinds_preorderAll (id + 1) ((id, .node kind span ts) :: ancestors) ts hts
    have hfirst : (Tree.node kind span ts).kind.isNamed = true := hkind
    rw [preorder, List.map_cons, List.filter_cons_of_pos hfirst, hbelow, Tree.named?, dif_pos hkind]
    exact (List.append_nil _).symm

theorem kinds_preorderAll (id : Nat) (ancestors : List (Nat × Tree)) (ts : List Tree)
    (h : ∀ t ∈ ts, t.Composed) :
    ((preorderAll id ancestors ts).map (·.node.kind)).filter Kind.isNamed =
      NamedTree.kindsAll (Tree.namedAll ts) := by
  cases ts with
  | nil => rfl
  | cons t ts =>
    have hfirst := kinds_preorder id ancestors t (h t List.mem_cons_self)
    have hmore := kinds_preorderAll (id + t.size) ancestors ts fun u hu => h u (List.mem_cons_of_mem _ hu)
    rw [preorderAll, List.map_append, List.filter_append, hfirst, hmore, Tree.namedAll,
      NamedTree.kindsAll_append]

end

end Site

/-! ### Nodes that readers make -/

namespace Grammar

open Reader Abnf.Tree

theorem composed_token : Makes Composed token := Makes.single .leaf .leaf

theorem composed_ifAt (kind : Kind) : Makes Composed (ifAt kind) := composed_token.choose .nothing

theorem composed_comments : Makes Composed comments := Makes.comments .leaf

theorem composed_name : Makes Composed name := Makes.single .leaf composed_nameNode

theorem composed_node {kind : Kind} (hkind : kind.isNamed = true) {r : Reader} (hr : Makes Composed r) :
    Makes Composed (node kind r) :=
  hr.node .leaf fun _ htrees => .node hkind htrees

theorem composed_repeatCount : Makes Composed repeatCount :=
  composed_node rfl ((composed_ifAt _).seq ((composed_token.seq (composed_ifAt _)).choose .nothing))

section

variable {body : Option (Thunk Reader)} (hbody : ∀ r, body = some r → Makes Composed r.get)
include hbody

theorem composed_bracketed {kind : Kind} (hkind : kind.isNamed = true) (close : Kind) :
    Makes Composed (bracketed kind close body) := by
  cases body with
  | none => exact composed_node rfl composed_token
  | some r =>
    have henclosed : Makes Composed (delayed r) := hbody r rfl
    exact composed_node hkind (composed_token.seq (henclosed.seq (composed_ifAt close)))

theorem composed_element : Makes Composed (element body) :=
  composed_name.choose <| (composed_bracketed hbody rfl _).choose <|
    (composed_bracketed hbody rfl _).choose <| composed_token.choose .nothing

theorem composed_repetition : Makes Composed (repetition body) :=
  Makes.choose (composed_node rfl (composed_repeatCount.seq (composed_element hbody)))
    (composed_element hbody)

theorem composed_concatenation : Makes Composed (concatenation body) :=
  composed_comments.seq fun ts => composed_wrapParts rfl ((composed_repetition hbody).readParts ts)

theorem composed_alternationOver : Makes Composed (alternationOver body) := by
  refine composed_comments.seq fun ts => composed_wrapParts rfl fun x hx => ?_
  rcases List.mem_append.mp hx with hx | hx
  · exact composed_concatenation hbody ts x hx
  · exact (composed_token.seq (composed_concatenation hbody)).readParts _ x hx

end

theorem composed_alternation (levels : Nat) : Makes Composed (alternation levels) := by
  induction levels with
  | zero => exact composed_alternationOver fun r hr => absurd hr (Option.some_ne_none r).symm
  | succ levels ih =>
    refine composed_alternationOver fun r hr => ?_
    rw [← Option.some.inj hr]
    exact ih

theorem composed_elements (limit : Nat) : Makes Composed (elements limit) :=
  (composed_alternation limit).seq
    (Makes.many ((composed_node rfl composed_token).seq (composed_alternation limit)))

theorem composed_ruleHead : Makes Composed ruleHead :=
  composed_name.seq ((Makes.choose (composed_node rfl composed_token) .nothing).seq composed_comments)

theorem composed_rule (limit : Nat) : Makes Composed (rule limit) := by
  intro ts x hx
  rw [List.mem_singleton.mp hx]
  refine .node rfl fun y hy => ?_
  rcases List.mem_append.mp hy with hy | hy
  · exact composed_ruleHead ts y hy
  · rw [List.mem_singleton.mp hy]
    exact .node rfl (composed_elements limit _)

theorem composed_junk : Makes Composed junk := by
  have hitem : Makes Composed junkItem := composed_name.choose composed_token
  exact composed_node rfl (hitem.seq hitem.many)

theorem composed_ruleList (limit : Nat) : Makes Composed (ruleList limit) :=
  (Makes.many (composed_comments.seq ((composed_rule limit).choose composed_junk))).seq composed_comments

end Grammar

/-- In the tree of a text only leaves are not named. -/
theorem composed_root (limit : Nat) (source : Text) : (parse limit source).root.Composed :=
  .node rfl (Grammar.composed_ruleList limit _)

/-! ### Names -/

theorem Kind.nodup_names : (all.map name).Nodup := by decide +kernel

/-- No two kinds have the same name. -/
theorem Kind.name_injective : Function.Injective name :=
  fun k k' h => List.inj_on_of_nodup_map nodup_names (mem_all k) (mem_all k') h

namespace NamedKind

/-- The kind that is shown under a name. -/
def ofName? (name : Text) : Option NamedKind :=
  (Kind.all.find? fun kind => kind.isNamed && kind.name.toList == name).bind fun kind =>
    if h : kind.isNamed = true then some ⟨kind, h⟩ else none

/-- Whether a character may be part of a name. -/
def isLetter (c : Char) : Bool := c != '(' && c != ')' && c != ' '

theorem ofName?_name (k : NamedKind) : ofName? k.name.toList = some k := by
  obtain ⟨kind, hkind⟩ := k
  have hsome : (Kind.all.find? fun k => k.isNamed && k.name.toList == kind.name.toList).isSome = true :=
    List.find?_isSome.mpr ⟨kind, kind.mem_all, by rw [hkind, beq_self_eq_true]; rfl⟩
  obtain ⟨found, hfound⟩ := Option.isSome_iff_exists.mp hsome
  have hname : found.name = kind.name := by
    have hboth := List.find?_some hfound
    rw [Bool.and_eq_true, beq_iff_eq] at hboth
    exact String.toList_injective hboth.2
  rw [Kind.name_injective hname] at hfound
  rw [ofName?, name, hfound, Option.bind_some, dif_pos hkind]

/-- The names of named kinds are words; of other kinds, some are brackets. -/
theorem isLetter_of_mem_name (k : NamedKind) : ∀ c ∈ k.name.toList, isLetter c = true := by
  have hall : ((Kind.all.filter Kind.isNamed).all fun kind => kind.name.toList.all isLetter) = true := by
    decide +kernel
  have hmem := List.mem_filter.mpr ⟨k.kind.mem_all, k.isNamed⟩
  exact List.all_eq_true.mp (List.all_eq_true.mp hall k.kind hmem)

end NamedKind

/-! ### Reading an S-expression -/

namespace NamedTree

/-- How far an S-expression was read. -/
structure Reading where
  /-- The letters so far of a name that has begun. -/
  name? : Option Text
  /-- The nodes that have begun, the innermost one first, with the trees below them so far. -/
  opened : List (NamedKind × List NamedTree)
  /-- The trees around which no node is open. -/
  trees : List NamedTree

namespace Reading

/-- Puts a tree below the innermost open node. -/
def add (d : Reading) (t : NamedTree) : Reading :=
  match d.opened with
  | [] => { d with trees := d.trees ++ [t] }
  | (kind, children) :: opened => { d with opened := (kind, children ++ [t]) :: opened }

/-- Ends the name that has begun, if there is one, and opens a node of this name. -/
def endName? (d : Reading) : Option Reading :=
  match d.name? with
  | none => some d
  | some name => (NamedKind.ofName? name).map fun kind =>
      { d with name? := none, opened := (kind, []) :: d.opened }

/-- Ends the innermost open node. -/
def close? (d : Reading) : Option Reading :=
  match d.opened with
  | [] => none
  | (kind, children) :: opened => some ({ d with opened }.add (.node kind children))

/-- Goes on with a character. -/
def step? (d : Reading) (c : Char) : Option Reading :=
  if c = '(' then if d.name?.isNone then some { d with name? := some [] } else none
  else if c = ' ' then d.endName?
  else if c = ')' then d.endName?.bind close?
  else d.name?.map fun name => { d with name? := some (name ++ [c]) }

/-- Goes on with the characters of a string. -/
def run (d : Reading) (s : String) : Option Reading := s.toList.foldlM step? d

end Reading

/-- The tree that was written as an S-expression. -/
def ofSexp? (s : String) : Option NamedTree :=
  match Reading.run ⟨none, [], []⟩ s with
  | some ⟨none, [], [t]⟩ => some t
  | _ => none

namespace Reading

variable {d e : Reading}

theorem run_append (d : Reading) (s t : String) : d.run (s ++ t) = (d.run s).bind (·.run t) := by
  rw [run, String.toList_append, List.foldlM_append]
  rfl

theorem run_singleton (d : Reading) (c : Char) : d.run (String.singleton c) = d.step? c := by
  rw [run, String.toList_singleton, List.foldlM_cons]
  cases d.step? c <;> rfl

theorem endName?_of_none (h : d.name? = none) : d.endName? = some d := by
  rw [endName?, h]

theorem name?_of_endName? (h : d.endName? = some e) : e.name? = none := by
  cases hname : d.name? with
  | none =>
    rw [endName?_of_none hname] at h
    rw [← Option.some.inj h, hname]
  | some name =>
    rw [endName?, hname] at h
    obtain ⟨kind, -, rfl⟩ := Option.map_eq_some_iff.mp h
    rfl

theorem name?_add (d : Reading) (t : NamedTree) : (d.add t).name? = d.name? := by
  rw [add]
  split <;> rfl

/-- Trees that are added one after the other go below the node that is open. -/
theorem foldl_add_opened {kind : NamedKind} {children : List NamedTree}
    {opened : List (NamedKind × List NamedTree)} (h : d.opened = (kind, children) :: opened)
    (ts : List NamedTree) : ts.foldl add d = { d with opened := (kind, children ++ ts) :: opened } := by
  induction ts generalizing d children with
  | nil =>
    rw [List.append_nil, ← h]
    rfl
  | cons t ts ih =>
    have hadd : d.add t = { d with opened := (kind, children ++ [t]) :: opened } := by
      rw [add, h]
    rw [List.foldl_cons, hadd, ih rfl, List.append_assoc]
    rfl

/-- The letters of a name are kept until it ends. -/
theorem foldlM_letters (d : Reading) (before : Text) {letters : Text}
    (h : ∀ c ∈ letters, NamedKind.isLetter c = true) :
    letters.foldlM step? { d with name? := some before } =
      some { d with name? := some (before ++ letters) } := by
  induction letters generalizing before with
  | nil =>
    rw [List.append_nil]
    rfl
  | cons c letters ih =>
    have hc := h c List.mem_cons_self
    simp only [NamedKind.isLetter, Bool.and_eq_true, bne_iff_ne] at hc
    obtain ⟨⟨hopen, hclose⟩, hspace⟩ := hc
    have hstep : step? { d with name? := some before } c =
        some { d with name? := some (before ++ [c]) } := by
      rw [step?, if_neg hopen, if_neg hspace, if_neg hclose]
      rfl
    rw [List.foldlM_cons, hstep, Option.bind_eq_bind, Option.bind_some,
      ih (before ++ [c]) fun c' hc' => h c' (List.mem_cons_of_mem _ hc'), List.append_assoc]
    rfl

/-- A bracket and a name after it, which opens a node when it ends. -/
theorem run_name (h : d.name? = none) (kind : NamedKind) :
    ∃ begun, d.run ("(" ++ kind.name) = some begun ∧
      begun.endName? = some { d with opened := (kind, []) :: d.opened } := by
  refine ⟨{ d with name? := some kind.name.toList }, ?_, ?_⟩
  · have hopen : d.run "(" = some { d with name? := some [] } := by
      refine (run_singleton d '(').trans ?_
      rw [step?, if_pos rfl, h]
      rfl
    rw [run_append, hopen]
    exact foldlM_letters d [] (NamedKind.isLetter_of_mem_name kind)
  · show (NamedKind.ofName? kind.name.toList).map _ = _
    rw [NamedKind.ofName?_name, Option.map_some, ← h]

mutual

/-- What is written of a tree is read as the tree, wherever a tree may stand. -/
theorem run_sexp (d : Reading) (t : NamedTree) (h : d.name? = none) : d.run t.sexp = some (d.add t) := by
  cases t with
  | node kind children =>
    obtain ⟨begun, hname, hbegun⟩ := run_name h kind
    obtain ⟨last, hchildren, hlast⟩ := run_sexpAll begun _ children hbegun
    have hclose : last.run ")" = some (d.add (.node kind children)) := by
      refine (run_singleton last ')').trans ?_
      rw [step?, if_neg (by decide), if_neg (by decide), if_pos rfl, hlast, foldl_add_opened rfl]
      rfl
    rw [sexp, run_append, run_append, hname, Option.bind_some, hchildren, Option.bind_some, hclose]

/-- Trees after a name, or after other trees, are read as trees below the node that is open then.  The name
ends with the space before the first tree; if there is none, it has not ended yet. -/
theorem run_sexpAll (d e : Reading) (ts : List NamedTree) (h : d.endName? = some e) :
    ∃ last, d.run (sexpAll ts) = some last ∧ last.endName? = some (ts.foldl add e) := by
  cases ts with
  | nil => exact ⟨d, rfl, h⟩
  | cons t ts =>
    have hnone := name?_of_endName? h
    have hspace : d.run " " = some e := by
      refine (run_singleton d ' ').trans ?_
      rw [step?, if_neg (by decide), if_pos rfl, h]
    have hadd : (e.add t).endName? = some (e.add t) := endName?_of_none (by rw [name?_add, hnone])
    obtain ⟨last, hmore, hlast⟩ := run_sexpAll (e.add t) (e.add t) ts hadd
    refine ⟨last, ?_, hlast⟩
    rw [sexpAll, run_append, run_append, hspace, Option.bind_some, run_sexp e t hnone, Option.bind_some, hmore]

end

end Reading

theorem ofSexp?_sexp (t : NamedTree) : ofSexp? t.sexp = some t := by
  rw [ofSexp?, Reading.run_sexp ⟨none, [], []⟩ t rfl]
  rfl

end NamedTree

/-- The root of a tree is named. -/
theorem exists_named_root (limit : Nat) (source : Text) :
    ∃ named, (parse limit source).root.named? = some named := by
  cases hnamed : (parse limit source).root.named? with
  | none =>
    have hkind : Kind.sourceFile.isNamed = false := Tree.named?_eq_none_iff.mp hnamed
    exact absurd hkind (by decide)
  | some named => exact ⟨named, rfl⟩

/-- An S-expression determines the named nodes.  The trees of two texts, whatever their limits are, are shown
alike iff their named nodes are alike in kind and nesting, and these can be read off the S-expression.  They are
all the nodes that are named. -/
theorem sexp_determines_named (limit limit' : Nat) (source source' : Text) :
    let tree := parse limit source
    let tree' := parse limit' source'
    (tree.root.sexp = tree'.root.sexp ↔ tree.root.named? = tree'.root.named?) ∧
      ∃ named, tree.root.named? = some named ∧ NamedTree.ofSexp? tree.root.sexp = some named ∧
        named.kinds = (tree.sites.map (·.node.kind)).filter Kind.isNamed := by
  intro tree tree'
  obtain ⟨named, hnamed⟩ := exists_named_root limit source
  obtain ⟨named', hnamed'⟩ := exists_named_root limit' source'
  have hsexp : tree.root.sexp = named.sexp := Tree.sexp_of_named? _ hnamed
  have hsexp' : tree'.root.sexp = named'.sexp := Tree.sexp_of_named? _ hnamed'
  refine ⟨?_, named, hnamed, by rw [hsexp, NamedTree.ofSexp?_sexp], ?_⟩
  · rw [hsexp, hsexp', show tree.root.named? = _ from hnamed, show tree'.root.named? = _ from hnamed']
    constructor
    · intro h
      rw [← NamedTree.ofSexp?_sexp named, h, NamedTree.ofSexp?_sexp]
    · intro h
      rw [Option.some.inj h]
  · have hkinds := Site.kinds_preorder 0 [] tree.root (composed_root limit source)
    rw [show tree.root.named? = _ from hnamed] at hkinds
    exact ((List.append_nil _).symm.trans hkinds.symm)

end Abnf
