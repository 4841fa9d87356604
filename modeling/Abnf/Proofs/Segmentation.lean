/-
The entries of a grammar are the runs of its tokens.

Below the root there is one tree for each run of tokens, comments apart: a new one starts at every token
in the first column, however the text before it ends (`entries_are_runs`).  The cut is not made in one
place of the grammar.  What is used here is that an entry leaves exactly the later runs (`entry_rest`);
since it loses no token, it has taken the first one (`withoutComments_entry`).

`Token.runs` is what a search for neighbours gives of which the second does not start a line
(`runs_eq_splitBy`), so that the statement does not depend on how the runs are computed.
-/
import Mathlib.Data.List.Forall2
import Mathlib.Data.List.SplitBy
import Abnf.Proofs.Runs
import Abnf.Syntax.Document

namespace Abnf

namespace Token

/-- After its first token, a run goes on for as long as no token starts a line. -/
theorem runs_eq_splitBy (ts : List Token) : runs ts = ts.splitBy fun _ t => !t.atLineStart := by
  fun_induction runs ts with
  | case1 => rfl
  | case2 t ts ih =>
    have hchain : (t :: ts.takeWhile isInLine).IsChain fun _ u => (!u.atLineStart) = true := by
      rw [List.isChain_iff_forall_rel_of_append_cons_cons]
      intro u v front back hsplit
      -- the second of two neighbours is not the first token of the run
      have hv : v ∈ ts.takeWhile isInLine := by
        have htail := congrArg List.tail hsplit
        rw [List.tail_cons, List.tail_append] at htail
        rw [htail]
        cases front <;> simp
      exact List.all_eq_true.mp List.all_takeWhile v hv
    have hcut : ∀ u ∈ (t :: ts.takeWhile isInLine).getLast?,
        ∀ v ∈ (ts.dropWhile isInLine).head?, (!v.atLineStart) = false := by
      intro u _ v hv
      have hnot := List.head?_dropWhile_not isInLine ts
      rw [hv] at hnot
      simpa [isInLine] using hnot
    rw [ih, ← List.singleton_append, ← List.splitBy_of_isChain (List.cons_ne_nil _ _) hchain,
      ← List.splitBy_append hcut, List.cons_append, List.takeWhile_append_dropWhile]

end Token

/-- Whether a tree is the entry of a run. -/
structure Tree.EntryOf (x : Tree) (run : List Token) : Prop where
  /-- The tokens of the tree other than comments are those of the run. -/
  tokens : x.leaves.filter (!·.isComment) = run
  /-- The first of them tells whether the tree is a rule. -/
  kind : ∃ first rest, run = first :: rest ∧
    x.kind = if first.kind = .identifier ∧ first.atLineStart = true then .rule else .error

namespace Grammar

open Reader Token

/-! ### One entry -/

/-- An entry is one tree after comments. -/
theorem entry_read (limit : Nat) {ts us : List Token} {t : Token}
    (hus : (comments.read ts).2 = t :: us) (hc : t.isComment = false) :
    ∃ x, ((entry limit).read ts).1 = (comments.read ts).1 ++ [x] ∧
      x.kind = if t.kind = .identifier ∧ t.atLineStart = true then .rule else .error := by
  have hat : isAtRule (t :: us) = true ↔ t.kind = .identifier ∧ t.atLineStart = true := by
    rw [isAtRule_cons hc, isHead, Bool.and_eq_true, beq_iff_eq]
  rw [entry, seq_read, hus]
  by_cases hhead : t.kind = .identifier ∧ t.atLineStart = true
  · rw [if_pos hhead, choose_pos (hat.mpr hhead), rule_read limit hc]
    exact ⟨_, rfl, rfl⟩
  · rw [if_neg hhead, choose_neg (Bool.eq_false_iff.mpr fun h => hhead (hat.mp h)), junk, node_read,
      comments_cons hc]
    exact ⟨_, rfl, rfl⟩

/-- The tokens of an entry are those of the first run. -/
theorem withoutComments_entry (limit : Nat) {ts us : List Token} {t : Token}
    (hus : (comments.read ts).2 = t :: us) (hc : t.isComment = false) :
    withoutComments (Tree.leavesAll ((entry limit).read ts).1) = t :: line us := by
  -- no token is lost, and the later runs are what is left: the entry has taken the first one
  have hkeeps := congrArg withoutComments ((entry limit).keeps ts)
  have hall : withoutComments ts = t :: line us ++ later us := by
    rw [← withoutComments_comments, hus, withoutComments_cons hc, List.cons_append, line, later,
      List.takeWhile_append_dropWhile]
  rw [withoutComments_append, entry_rest limit hus hc, hall] at hkeeps
  exact List.append_cancel_right hkeeps

/-! ### All entries -/

/-- The trees other than comments. -/
def entries (trees : List Tree) : List Tree := trees.filter (·.kind != .comment)

theorem entries_append (trees more : List Tree) :
    entries (trees ++ more) = entries trees ++ entries more :=
  List.filter_append trees more

theorem entries_comments (ts : List Token) : entries (comments.read ts).1 = [] := by
  rw [entries, List.filter_eq_nil_iff]
  intro x hx
  obtain ⟨c, rfl, hcomment⟩ := mem_comments hx
  simp [Tree.kind, kind_of_isComment hcomment]

theorem withoutComments_leaves_comments (ts : List Token) :
    withoutComments (Tree.leavesAll (comments.read ts).1) = [] := by
  have hkeeps := congrArg withoutComments (comments.keeps ts)
  rw [withoutComments_append, withoutComments_comments] at hkeeps
  exact List.append_cancel_right (hkeeps.trans (List.nil_append _).symm)

/-- One round of the loop over the entries makes the entry of the first run. -/
theorem entryOf_entry (limit : Nat) {ts us : List Token} {t : Token}
    (hus : (comments.read ts).2 = t :: us) (hc : t.isComment = false) :
    ∃ x, entries ((entry limit).read ts).1 = [x] ∧ x.EntryOf (t :: line us) := by
  obtain ⟨x, hread, hkind⟩ := entry_read limit hus hc
  have htokens := withoutComments_entry limit hus hc
  rw [hread, Tree.leavesAll_append, withoutComments_append, withoutComments_leaves_comments,
    List.nil_append, Tree.leavesAll_cons, Tree.leavesAll_nil, List.append_nil] at htokens
  have hentry : (x.kind != .comment) = true := by
    rw [hkind]
    split <;> rfl
  refine ⟨x, ?_, htokens, t, _, rfl, hkind⟩
  rw [hread, entries_append, entries_comments, List.nil_append]
  exact List.filter_cons_of_pos hentry

/-- The loop over the entries makes one tree for each run. -/
theorem entryOf_readParts (limit : Nat) (ts : List Token) :
    List.Forall₂ Tree.EntryOf
      (entries (readParts hasNext (entry limit) (entry_consumes limit) ts).1.flatten)
      (runs (withoutComments ts)) := by
  fun_induction readParts hasNext (entry limit) (entry_consumes limit) ts with
  | case1 ts hnext more ih =>
    obtain ⟨t, hnext⟩ := Option.isSome_iff_exists.mp hnext
    obtain ⟨us, hus⟩ := comments_of_next? hnext
    have hc := isComment_of_next? hnext
    obtain ⟨x, hx, hentry⟩ := entryOf_entry limit hus hc
    rw [runs_of_next limit hus hc, List.flatten_cons, entries_append, hx]
    exact .cons hentry ih
  | case2 ts hnext =>
    rw [runs_of_hasNext (by simpa using hnext)]
    exact .nil

theorem entryOf_ruleList (limit : Nat) (ts : List Token) :
    List.Forall₂ Tree.EntryOf (entries ((ruleList limit).read ts).1)
      (runs (withoutComments ts)) := by
  rw [ruleList, seq_read, entries_append, entries_comments, List.append_nil]
  exact entryOf_readParts limit ts

end Grammar

/-- The trees below the root follow the first column.  Cut the tokens other than comments before each
token that starts a line.  Then the trees below the root other than comments are as many as these runs,
and each holds exactly the tokens of its run.  It is a rule if the run starts with a name in the first
column, and an error if not. -/
theorem entries_are_runs (limit : Nat) (source : Text) :
    let tokens := (Token.scan source).filter fun t => t.isSignificant && !t.isComment
    let runs := tokens.splitBy fun _ t => !t.atLineStart
    let entries := (parse limit source).root.children.filter (·.kind != .comment)
    List.Forall₂ Tree.EntryOf entries runs := by
  intro tokens runs entries
  have hruns : runs = Token.runs (Token.withoutComments (Token.significant source)) := by
    rw [Token.runs_eq_splitBy, Token.withoutComments, Token.significant, List.filter_filter]
    exact congrArg (List.splitBy _) (List.filter_congr fun t _ => Bool.and_comm _ _)
  rw [hruns]
  exact Grammar.entryOf_ruleList limit (Token.significant source)

-- a line that starts with a blank, a comment in the first column, and a group that is left open
example : (parse 1 " a\n;c\nb = (c ;d\n=\n e".toList).root.children.map Tree.kind =
    [.error, .comment, .rule, .comment, .error] := by decide +kernel

end Abnf
