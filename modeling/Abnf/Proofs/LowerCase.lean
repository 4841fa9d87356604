/-
Texts in lower case.

A text that is put into lower case keeps its tokens: they have the same kinds and stand at the same
offsets (`Token.scanFrom_lower`).  The classes of characters that the scanner knows hold all letters or
none, and the letters after a percent sign are compared in lower case.  So the tree of the text is the
tree that it was, with its tokens in lower case (`parse_lower`), and its sites are those that they were
(`SyntaxTree.sites_lower`, `SyntaxTree.siteAt?_lower`).
-/
import Abnf.Index
import Abnf.Proofs.Renaming

namespace Abnf

/-! ### Characters -/

namespace Text

/-- A text with its letters in lower case. -/
def lower (text : Text) : Text := text.map Char.toLower

/-- Only letters change, and they stay letters. -/
theorem toLower_cases (c : Char) :
    c.toLower = c ∨ c.isAlpha = true ∧ c.toLower.isAlpha = true := by
  cases h : c.isUpper with
  | false => exact Or.inl (toLower_of_not_isUpper h)
  | true =>
    have hlower : c.toLower.isLower = true := by
      have hrange := (isUpper_iff c).mp h
      rw [isLower_iff, toNat_toLower h]
      omega
    exact Or.inr ⟨Bool.or_eq_true_iff.mpr (Or.inl h), Bool.or_eq_true_iff.mpr (Or.inr hlower)⟩

/-- A class that does not tell letters apart does not see their case. -/
theorem toLower_class {p : Char → Bool} {v : Bool} (hp : ∀ c, c.isAlpha = true → p c = v)
    (c : Char) : p c.toLower = p c := by
  rcases toLower_cases c with h | ⟨h, h'⟩
  · rw [h]
  · rw [hp _ h, hp _ h']

theorem isAlpha_toLower (c : Char) : c.toLower.isAlpha = c.isAlpha := toLower_class (fun _ h => h) c

theorem toLower_toLower (c : Char) : c.toLower.toLower = c.toLower :=
  toLower_of_not_isUpper (isUpper_toLower c)

theorem toLower_eq_iff {d : Char} (hd : d.isAlpha = false) (c : Char) :
    c.toLower = d ↔ c = d := by
  have hclass : (c.toLower == d) = (c == d) :=
    toLower_class (p := (· == d)) (fun e he => beq_eq_false_iff_ne.mpr (ne_of_isAlpha he hd)) c
  rw [← beq_iff_eq, hclass, beq_iff_eq]

theorem utf8Size_toLower (c : Char) : c.toLower.utf8Size = c.utf8Size := by
  rcases toLower_cases c with h | ⟨h, h'⟩
  · rw [h]
  · rw [Token.utf8Size_of_isNameChar (Token.isNameChar_of_isAlpha h),
      Token.utf8Size_of_isNameChar (Token.isNameChar_of_isAlpha h')]

theorem byteLength_lower (text : Text) : text.lower.byteLength = text.byteLength := by
  induction text with
  | nil => rfl
  | cons c cs ih =>
    show c.toLower.utf8Size + byteLength (lower cs) = _
    rw [utf8Size_toLower, ih]
    rfl

theorem head?_lower {d : Char} (hd : d.isAlpha = false) (text : Text) :
    text.lower.head? = some d ↔ text.head? = some d := by
  cases text with
  | nil => exact Iff.rfl
  | cons c cs =>
    show some c.toLower = some d ↔ some c = some d
    rw [Option.some.injEq, Option.some.injEq, toLower_eq_iff hd]

end Text

namespace Token

open Text (toLower_class toLower_eq_iff)

/-! ### Lexemes -/

theorem isRowBreak_of_isAlpha {c : Char} (h : c.isAlpha = true) : Text.isRowBreak c = false := by
  simp [Text.isRowBreak, Text.ne_of_isAlpha h (d := '\n') rfl, Text.ne_of_isAlpha h (d := '\r') rfl]

theorem run_lower {p : Char → Bool} {v : Bool} (hp : ∀ c, c.isAlpha = true → p c = v)
    (cs : Text) : run p cs.lower = run p cs := by
  have hsame : p ∘ Char.toLower = p := funext fun c => toLower_class hp c
  rw [run, run, Text.lower, List.takeWhile_map, List.length_map, hsame]

theorem delimited_lower (kind : Kind) (close : Char) (hclose : close.isAlpha = false) (cs : Text) :
    delimited kind close cs.lower = delimited kind close cs := by
  have hrun : run (fun c => c != close && !Text.isRowBreak c) cs.lower =
      run (fun c => c != close && !Text.isRowBreak c) cs := by
    refine run_lower (v := true) (fun c hc => ?_) cs
    simp [isRowBreak_of_isAlpha hc, Text.ne_of_isAlpha hc hclose]
  have hhead := Text.head?_lower hclose (cs.drop (run (fun c => c != close && !Text.isRowBreak c) cs))
  rw [Text.lower, List.map_drop] at hhead
  rw [delimited, delimited, hrun]
  simp only [Text.lower, hhead]

theorem isAlphanum_toLower (c : Char) : c.toLower.isAlphanum = c.isAlphanum :=
  toLower_class (v := true) (fun _ hd => isAlphanum_of_isAlpha hd) c

theorem percent_lower (cs : Text) : percent cs.lower = percent cs := by
  rcases cs with _ | ⟨c, _ | ⟨d, cs⟩⟩
  · rfl
  · rfl
  · have hquote : (d.toLower == '"') = (d == '"') := by
      rw [Bool.eq_iff_iff, beq_iff_eq, beq_iff_eq, toLower_eq_iff rfl]
    have hrun := run_lower (p := isNumValChar) (v := true)
      (fun e he => isNumValChar_of_isAlphanum (isAlphanum_of_isAlpha he)) (d :: cs)
    have hstring := delimited_lower .charVal '"' rfl cs
    simp only [Text.lower, List.map_cons] at hrun hstring ⊢
    simp only [percent, Text.toLower_toLower, hquote, isAlphanum_toLower, hrun, hstring]

/-- The case of letters does not decide on a token. -/
theorem lexeme_lower (c : Char) (cs : Text) : lexeme c.toLower cs.lower = lexeme c cs := by
  have hblank : ∀ d : Char, d.isAlpha = true → isSpaceOrTab d = false := by
    intro d hd
    simp [isSpaceOrTab, Text.ne_of_isAlpha hd (d := ' ') rfl, Text.ne_of_isAlpha hd (d := '\t') rfl]
  have hdigit : ∀ d : Char, d.isAlpha = true → d.isDigit = false :=
    fun d hd => Bool.eq_false_iff.mpr fun hd' => not_isAlpha_of_isDigit hd' hd
  have hrest : ∀ d : Char, d.isAlpha = true → (!Text.isRowBreak d) = true := by
    intro d hd
    rw [isRowBreak_of_isAlpha hd]
    rfl
  -- the only two characters that are looked for behind the first one
  have hbreak := Text.head?_lower (d := '\n') rfl cs
  have hslash := Text.head?_lower (d := '/') rfl cs
  simp only [lexeme, toLower_class hblank, Text.isAlpha_toLower,
    toLower_class hdigit, run_lower hblank, run_lower hdigit, run_lower hrest,
    run_lower (v := true) (fun d hd => isNameChar_of_isAlpha hd), hbreak, hslash,
    delimited_lower .charVal '"' rfl, delimited_lower .proseVal '>' rfl,
    percent_lower, toLower_eq_iff (d := '\r') rfl, toLower_eq_iff (d := '\n') rfl,
    toLower_eq_iff (d := ';') rfl, toLower_eq_iff (d := '=') rfl, toLower_eq_iff (d := '/') rfl,
    toLower_eq_iff (d := '(') rfl, toLower_eq_iff (d := ')') rfl, toLower_eq_iff (d := '[') rfl,
    toLower_eq_iff (d := ']') rfl, toLower_eq_iff (d := '*') rfl, toLower_eq_iff (d := '"') rfl,
    toLower_eq_iff (d := '<') rfl, toLower_eq_iff (d := '%') rfl]

/-- A token with its letters in lower case. -/
def lower (t : Token) : Token := { t with text := t.text.lower }

theorem span_lower (t : Token) : t.lower.span = t.span := by
  rw [span, span, lower, Text.byteLength_lower]

/-- A text in lower case has the same tokens in lower case. -/
theorem scanFrom_lower (start : Nat) (atLineStart : Bool) (text : Text) :
    scanFrom start atLineStart text.lower = (scanFrom start atLineStart text).map lower := by
  fun_induction scanFrom start atLineStart text with
  | case1 start atLineStart =>
    show scanFrom start atLineStart [] = _
    rw [scanFrom]
    rfl
  | case2 start atLineStart c cs token ih =>
    have hlexeme := lexeme_lower c cs
    have hfirst : first start atLineStart c.toLower (Text.lower cs) = token.lower := by
      rw [first, hlexeme]
      simp only [token, first, lower, Text.lower, List.map_take, List.map_cons]
    have hdrop : (Text.lower cs).drop (lexeme c cs).2 = Text.lower (cs.drop (lexeme c cs).2) :=
      List.map_drop.symm
    show scanFrom start atLineStart (c.toLower :: Text.lower cs) = _
    rw [scanFrom, hfirst, hlexeme, hdrop, span_lower, List.map_cons, ← ih]
    rfl

theorem significant_lower (text : Text) :
    significant text.lower = (significant text).map lower := by
  rw [significant, scan, scanFrom_lower, List.filter_map]
  rfl

/-- The case of letters does not change what a name stands for. -/
theorem key_lower (text : Text) :
    RuleName.key (String.ofList text.lower) = RuleName.key (String.ofList text) := by
  have htwice : Char.toLower ∘ Char.toLower = Char.toLower :=
    funext Text.toLower_toLower
  rw [RuleName.key, RuleName.key, String.toList_ofList, String.toList_ofList, Text.lower,
    List.map_map, htwice]

end Token

/-! ### Trees -/

namespace Tree

mutual

/-- A tree with the letters of its tokens in lower case. -/
def lower : Tree → Tree
  | leaf token => leaf token.lower
  | node kind span children => node kind span (lowerAll children)

def lowerAll : List Tree → List Tree
  | [] => []
  | t :: ts => lower t :: lowerAll ts

end

theorem lowerAll_eq_map (ts : List Tree) : lowerAll ts = ts.map lower := by
  induction ts with
  | nil => rfl
  | cons t ts ih => rw [lowerAll, ih, List.map_cons]

@[simp]
theorem kind_lower (t : Tree) : t.lower.kind = t.kind := by cases t <;> rfl

@[simp]
theorem span_lower (t : Tree) : t.lower.span = t.span := by
  cases t with
  | leaf token => exact token.span_lower
  | node kind span children => rfl

theorem children_lower (t : Tree) : t.lower.children = t.children.map lower := by
  cases t with
  | leaf token => rfl
  | node kind span children => exact lowerAll_eq_map children

theorem spanOf_lower (ts : List Tree) (offset : Nat) :
    spanOf (ts.map lower) offset = spanOf ts offset := by
  rw [spanOf, spanOf, List.head?_map, List.getLast?_map]
  cases ts.head? with
  | none => rfl
  | some first =>
    cases ts.getLast? with
    | none => rfl
    | some last => simp

theorem lower_branch (kind : Kind) (ts : List Tree) :
    (branch kind ts).lower = branch kind (ts.map lower) := by
  rw [branch, lower, lowerAll_eq_map, branch, spanOf_lower]

mutual

theorem size_lower (t : Tree) : t.lower.size = t.size := by
  cases t with
  | leaf token => rfl
  | node kind span children => rw [lower, size, size, sizeAll_lower children]

theorem sizeAll_lower (ts : List Tree) : sizeAll (lowerAll ts) = sizeAll ts := by
  cases ts with
  | nil => rfl
  | cons t ts => rw [lowerAll, sizeAll, sizeAll, size_lower t, sizeAll_lower ts]

end

mutual

theorem leaves_lower (t : Tree) : t.lower.leaves = t.leaves.map Token.lower := by
  cases t with
  | leaf token => rfl
  | node kind span children => exact leavesAll_lower children

theorem leavesAll_lower (ts : List Tree) :
    leavesAll (lowerAll ts) = (leavesAll ts).map Token.lower := by
  cases ts with
  | nil => rfl
  | cons t ts =>
    rw [lowerAll, leavesAll_cons, leaves_lower t, leavesAll_lower ts, leavesAll_cons,
      List.map_append]

end

/-- The tokens of a tree in lower case, put together. -/
theorem spelling_lower (t : Tree) :
    t.lower.spelling = String.ofList (Text.lower (t.leaves.flatMap Token.text)) := by
  rw [spelling, leaves_lower, List.flatMap_map, Text.lower, List.map_flatMap]
  rfl

end Tree

namespace Grammar

/-- Trees are put into lower case with their tokens. -/
theorem parallel_lower :
    Parallel (fun t t' => t.lower = t') fun x x' => x.lower = x' where
  kind := by
    rintro t _ rfl
    rfl
  line := by
    rintro t _ rfl
    rfl
  core := by
    rintro t _ rfl _
    exact CoreRule.isName_congr (Token.key_lower t.text)
  leaf := by
    rintro t _ rfl
    rfl
  branch := by
    intro kind ts ts' _ h
    rw [← List.forall₂_map_left_iff, List.forall₂_eq_eq_eq] at h
    rw [Tree.lower_branch, h]
  body := by
    intro before before' ts ts' _ hbefore h
    rw [← List.forall₂_map_left_iff, List.forall₂_eq_eq_eq] at h hbefore
    rw [Tree.lower, Tree.lowerAll_eq_map, ← h, ← hbefore, Tree.spanOf_lower, Tree.spanOf_lower]

end Grammar

def SyntaxTree.lower (tree : SyntaxTree) : SyntaxTree := ⟨tree.source.lower, tree.root.lower⟩

theorem parse_lower (limit : Nat) (source : Text) :
    parse limit source.lower = (parse limit source).lower := by
  rw [parse, Token.significant_lower, Grammar.parallel_lower.ruleList_map, Text.byteLength_lower,
    ← Tree.lowerAll_eq_map]
  rfl

/-! ### Sites -/

namespace Site

def lowerAncestors (ancestors : List (Nat × Tree)) : List (Nat × Tree) :=
  ancestors.map fun a => (a.1, a.2.lower)

/-- A site in a tree in lower case. -/
def lower (s : Site) : Site := ⟨s.id, s.node.lower, lowerAncestors s.ancestors⟩

theorem parent?_lower (s : Site) : s.lower.parent? = s.parent?.map lower := by
  obtain ⟨id, node, ancestors⟩ := s
  cases ancestors <;> rfl

theorem siblings_lower (ancestors : List (Nat × Tree)) (id : Nat) (ts : List Tree) :
    siblings (lowerAncestors ancestors) id (ts.map Tree.lower) =
      (siblings ancestors id ts).map lower := by
  induction ts generalizing id with
  | nil => rfl
  | cons t ts ih =>
    rw [List.map_cons, siblings, siblings, List.map_cons, Tree.size_lower, ih]
    rfl

theorem children_lower (s : Site) : s.lower.children = s.children.map lower := by
  rw [children, children, ← siblings_lower, ← Tree.children_lower]
  rfl

mutual

theorem preorder_lower (id : Nat) (ancestors : List (Nat × Tree)) (t : Tree) :
    preorder id (lowerAncestors ancestors) t.lower = (preorder id ancestors t).map lower := by
  cases t with
  | leaf token => rfl
  | node kind span children =>
    rw [Tree.lower, preorder, preorder, List.map_cons]
    exact congrArg _ (preorderAll_lower _ ((id, .node kind span children) :: ancestors) children)

theorem preorderAll_lower (id : Nat) (ancestors : List (Nat × Tree)) (ts : List Tree) :
    preorderAll id (lowerAncestors ancestors) (Tree.lowerAll ts) =
      (preorderAll id ancestors ts).map lower := by
  cases ts with
  | nil => rfl
  | cons t ts =>
    rw [Tree.lowerAll, preorderAll, preorderAll, List.map_append, Tree.size_lower,
      preorder_lower id ancestors t, preorderAll_lower _ ancestors ts]

end

mutual

theorem around_lower (offset id : Nat) (ancestors : List (Nat × Tree)) (t : Tree) :
    around offset id (lowerAncestors ancestors) t.lower = (around offset id ancestors t).lower := by
  cases t with
  | leaf token => rfl
  | node kind span children =>
    have hbelow := aroundAny?_lower offset (id + 1) ((id, .node kind span children) :: ancestors)
      children
    rw [Tree.lower, around, around, ← Option.getD_map lower, ← hbelow]
    rfl

theorem aroundAny?_lower (offset id : Nat) (ancestors : List (Nat × Tree)) (ts : List Tree) :
    aroundAny? offset id (lowerAncestors ancestors) (Tree.lowerAll ts) =
      (aroundAny? offset id ancestors ts).map lower := by
  cases ts with
  | nil => rfl
  | cons t ts =>
    rw [Tree.lowerAll, aroundAny?, aroundAny?, Tree.span_lower, Tree.size_lower]
    split
    · rw [around_lower offset id ancestors t]
      rfl
    · exact aroundAny?_lower offset _ ancestors ts

end

theorem target?_lower (s : Site) : s.lower.target? = s.target?.map lower := by
  rw [target?, target?, parent?_lower]
  show (if s.node.lower.kind.isName then _ else _) = _
  rw [Tree.kind_lower]
  split
  · rfl
  · cases s.parent? with
    | none => rfl
    | some p =>
      show Option.filter _ (some p.lower) = (Option.filter _ (some p)).map lower
      rw [Option.filter_some, Option.filter_some]
      show (if p.node.lower.kind.isName then _ else _) = _
      rw [Tree.kind_lower]
      split <;> rfl

theorem parentKind_lower (s : Site) :
    s.lower.parent?.any (·.node.kind == .rule) = s.parent?.any (·.node.kind == .rule) := by
  rw [parent?_lower, Option.any_map]
  simp [lower]

theorem isReference_lower (s : Site) : s.lower.isReference = s.isReference := by
  rw [isReference, parentKind_lower, isReference, lower, Tree.kind_lower]

theorem key_lower (s : Site) : s.lower.key = s.key := by
  rw [key, name, lower, Tree.spelling_lower, Token.key_lower]
  rfl

/-- A site by what it is and by the numbers of the sites around it. -/
def frame (s : Site) : Nat × Kind × Span × Option Nat × List Nat :=
  (s.id, s.node.kind, s.node.span, s.parent?.map id, s.children.map id)

theorem frame_lower (s : Site) : s.lower.frame = s.frame := by
  rw [frame, parent?_lower, children_lower, Option.map_map, List.map_map, frame]
  simp [lower, Function.comp_def]

end Site

namespace SyntaxTree

theorem sites_lower (tree : SyntaxTree) : tree.lower.sites = tree.sites.map Site.lower :=
  Site.preorder_lower 0 [] tree.root

theorem siteAt?_lower (tree : SyntaxTree) (offset : Nat) :
    tree.lower.siteAt? offset = (tree.siteAt? offset).map Site.lower := by
  rw [siteAt?, siteAt?]
  show (if tree.root.lower.span.contains offset then _ else _) = _
  rw [Tree.span_lower]
  split
  · exact congrArg some (Site.around_lower offset 0 [] tree.root)
  · rfl

theorem targetAt?_lower (tree : SyntaxTree) (offset : Nat) :
    tree.lower.targetAt? offset = (tree.targetAt? offset).map Site.lower := by
  rw [targetAt?, siteAt?_lower, targetAt?]
  cases tree.siteAt? offset with
  | none => rfl
  | some s => exact s.target?_lower

theorem map_frame_lower (tree : SyntaxTree) :
    tree.lower.sites.map Site.frame = tree.sites.map Site.frame := by
  rw [sites_lower, List.map_map]
  exact List.map_congr_left fun s _ => s.frame_lower

theorem frame_siteAt?_lower (tree : SyntaxTree) (offset : Nat) :
    (tree.lower.siteAt? offset).map Site.frame = (tree.siteAt? offset).map Site.frame := by
  rw [siteAt?_lower, Option.map_map]
  exact congrArg (Option.map · _) (funext Site.frame_lower)

theorem frame_targetAt?_lower (tree : SyntaxTree) (offset : Nat) :
    (tree.lower.targetAt? offset).map Site.frame = (tree.targetAt? offset).map Site.frame := by
  rw [targetAt?_lower, Option.map_map]
  exact congrArg (Option.map · _) (funext Site.frame_lower)

end SyntaxTree

end Abnf
