/-
The way in which lines end does not matter.

Put lines together with an LF, a CR or a CRLF between each two of them.  The tokens of the text, without
their offsets, are those of the lines one after the other (`Token.scanLeaves_joinLines`): a token does
not look past the end of its line, a line break is no part of a tree, and after it the next token starts
a line.  A CR, an empty line and an LF come together as one CRLF, which makes no difference for that.

So the trees of two such texts have one shape (`line_endings_do_not_matter`).  `Tree.ShownAlike` is what
such trees have in common besides the kinds and depths of their nodes.
-/
import Abnf.Proofs.Renaming

namespace Abnf

/-- An LF, a CR or a CRLF. -/
abbrev LineEnding := { b : Text // Abstract.LineBreak b }

/-- The text of some lines, with an ending between each two of them. -/
def Text.joinLines (endings : Nat → LineEnding) : List Text → Text
  | [] => []
  | [line] => line
  | line :: next :: lines =>
    line ++ ((endings 0).1 ++ joinLines (fun n => endings (n + 1)) (next :: lines))

/-! ### Tokens of lines -/

namespace Token

/-- The tokens of a text that are part of its tree, without their offsets. -/
def scanLeaves (atLineStart : Bool) (text : Text) : List Word :=
  ((scanFrom 0 atLineStart text).filter isSignificant).map word

theorem map_word_scanFrom (start : Nat) (atLineStart : Bool) (text : Text) :
    ((scanFrom start atLineStart text).filter isSignificant).map word =
      scanLeaves atLineStart text := by
  have hshift := scanFrom_add 0 start atLineStart text
  rw [Nat.zero_add] at hshift
  rw [hshift, List.filter_map, List.map_map]
  rfl

theorem scanLeaves_nil (atLineStart : Bool) : scanLeaves atLineStart [] = [] := by
  rw [scanLeaves, scanFrom]
  rfl

theorem scanLeaves_cons (atLineStart : Bool) (c : Char) (cs : Text) :
    scanLeaves atLineStart (c :: cs) =
      (([first 0 atLineStart c cs].filter isSignificant).map word) ++
        scanLeaves ((lexeme c cs).1 == .newline) (cs.drop (lexeme c cs).2) := by
  rw [scanLeaves, scanFrom, ← List.singleton_append, List.filter_append, List.map_append,
    map_word_scanFrom]
  rfl

/-- A line break is part of no tree, and after it a token starts a line. -/
theorem scanLeaves_break (atLineStart : Bool) {b : Char} (hb : Text.isRowBreak b = true)
    (rest : Text) : scanLeaves atLineStart (b :: rest) = scanLeaves true rest := by
  have hskip : ∀ (flag : Bool) (c : Char) (cs : Text), Text.isRowBreak c = true →
      scanLeaves flag (c :: cs) = scanLeaves true (cs.drop (lexeme c cs).2) := by
    intro flag c cs hc
    have hkind : (lexeme c cs).1 = .newline := by rw [lexeme_break hc]
    have hnot : (first 0 flag c cs).isSignificant = false := by
      show ((lexeme c cs).1 != .whitespace && (lexeme c cs).1 != .newline && _) = false
      rw [hkind]
      rfl
    rw [scanLeaves_cons, List.filter_cons_of_neg (by rw [hnot]; decide), hkind]
    rfl
  rw [hskip atLineStart b rest hb, lexeme_break hb]
  dsimp only
  split
  · -- the LF of a CRLF would be a line break by itself
    rename_i hcrlf
    obtain ⟨more, rfl⟩ : ∃ more, rest = '\n' :: more := by
      cases rest with
      | nil => exact absurd hcrlf.2 (by simp)
      | cons d more => exact ⟨more, by rw [Option.some.inj hcrlf.2]⟩
    rw [hskip true '\n' more rfl]
    rfl
  · rfl

theorem scanLeaves_lineBreak (atLineStart : Bool) {b : Text} (h : Abstract.LineBreak b)
    (rest : Text) : scanLeaves atLineStart (b ++ rest) = scanLeaves true rest := by
  cases h with
  | crlf =>
    show scanLeaves atLineStart ('\r' :: '\n' :: rest) = _
    rw [scanLeaves_break _ rfl, scanLeaves_break _ rfl]
  | lf => exact scanLeaves_break _ rfl rest
  | cr => exact scanLeaves_break _ rfl rest

/-- The tokens of a line come first, and then those after the break. -/
theorem scanLeaves_line (atLineStart : Bool) {line : Text}
    (hline : ∀ c ∈ line, Text.isRowBreak c = false) {b : Char} (hb : Text.isRowBreak b = true)
    (rest : Text) :
    scanLeaves atLineStart (line ++ b :: rest) =
      scanLeaves atLineStart line ++ scanLeaves true rest := by
  -- along the tokens of the line, wherever it starts
  have start : Nat := 0
  fun_induction scanFrom start atLineStart line with
  | case1 start atLineStart =>
    rw [List.nil_append, scanLeaves_break _ hb, scanLeaves_nil, List.nil_append]
  | case2 start atLineStart c cs token ih =>
    have hlexeme := lexeme_line hb cs rest (hline c List.mem_cons_self)
    have hle := lexeme_le c cs
    have hfirst : first 0 atLineStart c (cs ++ b :: rest) = first 0 atLineStart c cs := by
      simp only [first, hlexeme, List.take_append_of_le_length hle]
    have htail : ∀ d ∈ cs.drop (lexeme c cs).2, Text.isRowBreak d = false :=
      fun d hd => hline d (List.mem_cons_of_mem _ (List.mem_of_mem_drop hd))
    rw [List.cons_append, scanLeaves_cons, hfirst, hlexeme, List.drop_append_of_le_length hle,
      scanLeaves_cons, List.append_assoc]
    exact congrArg _ (ih htail)

/-- The tokens of lines that are put together are those of the lines, however the lines end. -/
theorem scanLeaves_joinLines (endings : Nat → LineEnding) {lines : List Text}
    (hlines : ∀ line ∈ lines, ∀ c ∈ line, Text.isRowBreak c = false) :
    scanLeaves true (Text.joinLines endings lines) = lines.flatMap (scanLeaves true) := by
  fun_induction Text.joinLines endings lines with
  | case1 => rw [scanLeaves_nil, List.flatMap_nil]
  | case2 endings line => rw [List.flatMap_singleton]
  | case3 endings line next lines ih =>
    have hmore := ih fun l hl => hlines l (List.mem_cons_of_mem _ hl)
    -- only the first character of the break is needed to end the line
    obtain ⟨b, hb⟩ := endings 0
    obtain ⟨c, cs, rfl, hc⟩ : ∃ c cs, b = c :: cs ∧ Text.isRowBreak c = true := by
      cases hb <;> exact ⟨_, _, rfl, rfl⟩
    have hrest := scanLeaves_lineBreak true hb
      (Text.joinLines (fun n => endings (n + 1)) (next :: lines))
    rw [List.cons_append, scanLeaves_break _ hc] at hrest
    rw [List.cons_append, scanLeaves_line true (hlines line List.mem_cons_self) hc, hrest, hmore]
    rfl

/-- Tokens that differ in their offsets only are read alike. -/
theorem blind_word : Grammar.Blind fun t t' => t.word = t'.word where
  kind h := (congrArg Word.kind h).symm
  line h := (congrArg Word.atLineStart h).symm
  core h _ := congrArg (fun text => CoreRule.isName (String.ofList text)) (congrArg Word.text h).symm

end Token

/-! ### Trees that are shown alike -/

namespace Tree

/-- Trees of one kind that have the same S-expression, and of which both or none hold an error. -/
structure ShownAlike (x x' : Tree) : Prop where
  kind : x'.kind = x.kind
  sexp : x'.sexp = x.sexp
  hasError : x'.hasError = x.hasError

theorem shownAlike_node (kind : Kind) (span span' : Span) {ts ts' : List Tree}
    (h : List.Forall₂ ShownAlike ts ts') : ShownAlike (node kind span ts) (node kind span' ts') := by
  have hall : sexpAll ts' = sexpAll ts ∧ anyError ts' = anyError ts := by
    induction h with
    | nil => exact ⟨rfl, rfl⟩
    | cons hx _ ih =>
      rw [sexpAll, sexpAll, anyError, anyError, hx.kind, hx.sexp, hx.hasError, ih.1, ih.2]
      exact ⟨rfl, rfl⟩
  refine ⟨rfl, ?_, ?_⟩
  · rw [sexp, sexp, hall.1]
  · rw [Tree.hasError, Tree.hasError, hall.2]

end Tree

/-- Tokens that the grammar cannot tell apart give trees that are shown alike. -/
theorem Grammar.Blind.shownAlike {P : Token → Token → Prop} (blind : Blind P) :
    Parallel P Tree.ShownAlike where
  toBlind := blind
  leaf := by
    intro t t' hp
    have hkind := blind.kind hp
    refine ⟨hkind, ?_, ?_⟩
    · rw [Tree.sexp, Tree.sexp, hkind]
    · rw [Tree.hasError, Tree.hasError, hkind]
  branch := by
    intro kind ts ts' _ h
    exact Tree.shownAlike_node kind _ _ h
  body := by
    intro before before' ts ts' _ _ h
    exact Tree.shownAlike_node .elements _ _ h

/-- The names of the definitions are told by the tokens without their offsets. -/
theorem Index.names_of_definitions (document : String) (limit : Nat) (source : Text) :
    (ofTree document (parse limit source)).definitions.map Definition.name =
      ((Token.scanLeaves true source).filter fun w => w.kind == .identifier &&
        (w.atLineStart && !CoreRule.isName (String.ofList w.text))).map
          fun w => String.ofList w.text := by
  have hnames := congrArg (List.map Prod.fst) (map_definitions document limit source)
  rw [List.map_map, List.map_map, ← Token.filter_significant] at hnames
  rw [Token.scanLeaves, List.filter_map, List.map_map]
  exact hnames

/-- How lines end does not matter.  Take lines without CR and LF, and put them together twice, each time
with an LF, a CR or a CRLF of one's choice between each two of them.  The trees of the two texts have the
same nodes at the same depths in pre-order, and leaves with the same texts.  So they have the same
S-expression, both or none of them hold an error, and the names that they define are the same. -/
theorem line_endings_do_not_matter (document : String) (limit : Nat) (lines : List Text)
    (hlines : ∀ line ∈ lines, '\r' ∉ line ∧ '\n' ∉ line) (endings endings' : Nat → LineEnding) :
    let tree := parse limit (Text.joinLines endings lines)
    let tree' := parse limit (Text.joinLines endings' lines)
    tree'.sites.map (fun s => (s.ancestors.length, s.node.kind)) =
        tree.sites.map (fun s => (s.ancestors.length, s.node.kind)) ∧
      tree'.sites.map tree'.leafText? = tree.sites.map tree.leafText? ∧
      tree'.root.sexp = tree.root.sexp ∧ tree'.root.hasError = tree.root.hasError ∧
      (Index.ofTree document tree').definitions.map Definition.name =
        (Index.ofTree document tree).definitions.map Definition.name := by
  intro tree tree'
  have hfree : ∀ line ∈ lines, ∀ c ∈ line, Text.isRowBreak c = false := by
    intro line hline c hc
    obtain ⟨hreturn, hfeed⟩ := hlines line hline
    have hne : ∀ d : Char, d ∉ line → c ≠ d := fun d hd heq => hd (heq ▸ hc)
    simp [Text.isRowBreak, hne '\n' hfeed, hne '\r' hreturn]
  have hwords : Token.scanLeaves true (Text.joinLines endings lines) =
      Token.scanLeaves true (Text.joinLines endings' lines) := by
    rw [Token.scanLeaves_joinLines endings hfree, Token.scanLeaves_joinLines endings' hfree]
  -- so the tokens of the two texts are the same one by one, but for their offsets
  have htokens : List.Forall₂ (fun t t' : Token => t.word = t'.word)
      (Token.significant (Text.joinLines endings lines))
      (Token.significant (Text.joinLines endings' lines)) := by
    rw [← List.forall₂_map_right_iff (f := Token.word),
      ← List.forall₂_map_left_iff (f := Token.word), List.forall₂_eq_eq_eq]
    exact hwords
  have hmatch := sites_match Token.blind_word limit htokens
  have hshown : Tree.ShownAlike tree.root tree'.root :=
    Tree.shownAlike_node .sourceFile _ _ (Token.blind_word.shownAlike.ruleList_trees limit htokens)
  refine ⟨?_, ?_, hshown.sexp, hshown.hasError, ?_⟩
  · refine Site.map_eq_of_match hmatch fun s s' h => ?_
    rw [h.depth, h.kind]
  · rw [List.map_congr_left fun s hs => leafText?_eq hs, List.map_congr_left fun s hs => leafText?_eq hs]
    refine Site.map_eq_of_match hmatch fun s s' h => ?_
    have htoken := h.token
    revert htoken
    generalize s.token? = t, s'.token? = t'
    rintro (h | -)
    · exact congrArg some (congrArg Word.text h).symm
    · rfl
  · rw [Index.names_of_definitions, Index.names_of_definitions, hwords]

/-- A CR, an empty line and an LF, which come together as one CRLF, in the place of two LF.  The lines
hold a string that is left open, a comment, and a rule that goes on in the next line. -/
theorem line_endings_do_not_matter_fused :
    let lines : List Text :=
      ["a = \"x".toList, [], ";c".toList, "b = a /".toList, " (b".toList]
    let feeds : Nat → LineEnding := fun _ => ⟨['\n'], .lf⟩
    let mixed : Nat → LineEnding := fun n =>
      if n = 0 then ⟨['\r'], .cr⟩ else if n = 1 then ⟨['\n'], .lf⟩ else ⟨['\r', '\n'], .crlf⟩
    (∀ line ∈ lines, '\r' ∉ line ∧ '\n' ∉ line) ∧
      Text.joinLines feeds lines = "a = \"x\n\n;c\nb = a /\n (b".toList ∧
      Text.joinLines mixed lines = "a = \"x\r\n;c\r\nb = a /\r\n (b".toList ∧
      (parse 1 (Text.joinLines mixed lines)).root.sexp =
        (parse 1 (Text.joinLines feeds lines)).root.sexp := by
  intro lines feeds mixed
  have hlines : ∀ line ∈ lines, '\r' ∉ line ∧ '\n' ∉ line := by decide
  exact ⟨hlines, rfl, rfl,
    (line_endings_do_not_matter "grammar" 1 lines hlines feeds mixed).2.2.1⟩

end Abnf
