/-
The record of a grammar.

For each part of a grammar there is a procedure of the recorder and a reader, and the one records what the
other reads.  The nesting of openers is limited in two ways, which have to agree: the reader for an
alternation is made for a number of levels, and the recorder counts the openers around it.  So an
alternation of some levels is recorded at the depth that leaves as many (`Recording.records_alternation`).

At the end, a whole text is recorded without a fault: every token is taken but the end of the text, every
marker is closed, and apart from tombstones the record is that of the tree of the text (`recordCounting_run`).
-/
import Abnf.Proofs.Lossless
import Abnf.Proofs.Recording

namespace Abnf

namespace Recording

open Recorder

variable {depth limit spare : Nat} {ts : List Token} {s : Recorder} {x : Recording Unit}

/-! ### Elements -/

theorem records_name : Records Reader.hasNext spare depth limit name Grammar.name := by
  intro ts hnext
  obtain ⟨t, ht⟩ := Option.isSome_iff_exists.mp hnext
  obtain ⟨rest, hrest⟩ := Reader.comments_of_next? ht
  generalize hkind : (if CoreRule.isListed (String.ofList t.text) then Kind.coreRulename else .rulename) =
    kind
  have hne : kind ≠ .tombstone := by
    rw [← hkind]
    split <;> exact Kind.noConfusion
  have hnode : Records Reader.hasNext spare depth limit (node kind bump) (.node kind .token) :=
    records_bump.node hne Reader.hasNext_comments
  have hread : Grammar.name.read ts = (Reader.node kind .token).read ts := by
    rw [Reader.node_read, hrest, Reader.token_read_cons (Reader.isComment_of_next? ht), ← hkind]
    exact Reader.single_read hrest
  obtain ⟨new, hnew, hrun⟩ := hnode ts hnext
  rw [hread]
  refine ⟨new, hnew, fun hs hroom => ?_⟩
  rw [name, run_bind (current_of_next? hs ht), hkind]
  exact hrun hs hroom

/-- Whether a recorder for what an opener encloses records, one level deeper, what a reader reads.  There
is none at the nesting limit. -/
inductive RecordsBody (depth limit : Nat) : Option (Recording Unit) → Option (Thunk Reader) → Prop
  | atLimit : limit ≤ depth → RecordsBody depth limit none none
  | below {x : Recording Unit} {r : Thunk Reader} : depth < limit →
      Records (fun _ => true) 2 (depth + 1) limit x r.get → RecordsBody depth limit (some x) (some r)

theorem records_deeper {r : Thunk Reader} (hx : Records (fun _ => true) spare (depth + 1) limit x r.get) :
    Records (fun _ => true) spare depth limit (deeper (some x)) (.delayed r) := by
  intro ts _
  obtain ⟨new, hnew, hrun⟩ := hx ts rfl
  refine ⟨new, hnew, fun {s} hs hroom => ?_⟩
  have hdown : (modify fun s : Recorder => { s with depth := s.depth + 1 } : Recording Unit) s =
      .ok ((), { s with depth := s.depth + 1 }) := rfl
  rw [deeper, run_bind hdown, run_bind (hrun hs.deeper hroom)]
  rfl

section

variable {body : Option (Recording Unit)} {body' : Option (Thunk Reader)}
  (hbody : RecordsBody depth limit body body')
include hbody

theorem records_bracketed {kind close : Kind} (hkind : kind ≠ .tombstone) (hclose : close ≠ .endOfText) :
    Records Reader.hasNext 1 depth limit (bracketed kind close body)
      (Grammar.bracketed kind close body') := by
  cases hbody with
  | atLimit hdepth =>
    -- at the limit the node ends after the opener
    refine RecordsFrom.start (RecordsFrom.congr (Records.complete Kind.noConfusion records_bump) ?_)
      Reader.hasNext_comments
    intro ts s hts hs
    obtain ⟨new, -, hrun⟩ := bump_run depth limit hts
    refine (run_bind (hrun hs.marked)).trans (Eq.trans ?_ (run_bind (hrun hs.marked)).symm)
    rw [run_bind (get_run _)]
    refine congrFun (if_pos ?_) _
    show s.limit ≤ s.depth
    rw [hs.limit_eq, hs.depth_eq]
    exact hdepth
  | below hdepth hx =>
    have hinside := records_bump.seq ((records_deeper hx).seq (records_ifAt hclose) fun _ _ => rfl)
      fun (ts : List Token) (_ : Reader.hasNext ts = true) => rfl
    refine RecordsFrom.start (RecordsFrom.congr (Records.complete hkind hinside) ?_)
      Reader.hasNext_comments
    intro ts s hts hs
    obtain ⟨new, -, hrun⟩ := bump_run depth limit hts
    simp only [bind_assoc]
    refine (run_bind (hrun hs.marked)).trans (Eq.trans ?_ (run_bind (hrun hs.marked)).symm)
    rw [run_bind (get_run _)]
    refine congrFun (if_neg ?_) _
    show ¬s.limit ≤ s.depth
    rw [hs.limit_eq, hs.depth_eq]
    exact Nat.not_le_of_lt hdepth

omit hbody in
/-- An element is told by the kind of its first token. -/
theorem element_run {kind : Kind} (hs : StandsAt depth limit ts s) :
    element body s = (if Reader.isAt kind ts then elementAt body kind else element body) s := by
  by_cases hkind : Reader.isAt kind ts = true
  · rw [if_pos hkind, element, run_bind (peek_run hs), beq_iff_eq.mp hkind]
    rfl
  · rw [if_neg hkind]

omit hbody in
/-- An element that is no name and is not in brackets is a value. -/
theorem elementAt_value {kind? : Option Kind} (hname : (kind? == some .identifier) = false)
    (hgroup : (kind? == some .leftParen) = false) (hoption : (kind? == some .leftBracket) = false) :
    elementAt body (kind?.getD .endOfText) =
      if kind? == some .charVal || kind? == some .numVal || kind? == some .proseVal then bump
      else return () := by
  cases kind? with
  | none => rfl
  | some kind => cases kind <;> first | rfl | contradiction

theorem records_element : Records (fun _ => true) 1 depth limit (element body) (Grammar.element body') := by
  have hnext : ∀ {p : List Token → Bool} {kind : Kind} (ts : List Token),
      (p ts && Reader.isAt kind ts) = true → Reader.hasNext ts = true :=
    fun ts h => Reader.hasNext_of_isAt ts (Bool.and_eq_true_iff.mp h).2
  refine Records.choose (fun _ hs => element_run hs) (records_name.mono hnext) ?_
  refine Records.choose (fun _ hs => element_run hs)
    ((records_bracketed hbody Kind.noConfusion Kind.noConfusion).mono hnext) ?_
  refine Records.choose (fun _ hs => element_run hs)
    ((records_bracketed hbody Kind.noConfusion Kind.noConfusion).mono hnext) ?_
  refine Records.choose (fun {ts s} hts hs => ?_) (records_bump.mono fun ts h => ?_) records_nothing
  · simp only [Bool.true_and, Bool.and_eq_true, Bool.not_eq_true'] at hts
    rw [element, run_bind (peek_run hs), elementAt_value hts.1.1 hts.1.2 hts.2]
    rfl
  · have hvalue := (Bool.and_eq_true_iff.mp h).2
    simp only [Grammar.isAtValue, Bool.or_eq_true] at hvalue
    rcases hvalue with (hvalue | hvalue) | hvalue <;> exact Reader.hasNext_of_isAt ts hvalue

end

theorem records_repeatCount :
    Records (fun _ => true) spare depth limit repeatCount Grammar.repeatCount := by
  refine Records.node Kind.noConfusion ?_ fun _ => rfl
  refine (records_ifAt Kind.noConfusion).seq (q := fun _ => true) ?_ fun _ _ => rfl
  refine Records.ask (asks_isAt Kind.noConfusion) (Records.mono (p := Reader.hasNext) ?_ fun ts h => ?_)
    records_nothing
  · exact records_bump.seq (records_ifAt Kind.noConfusion) fun _ _ => rfl
  · exact Reader.hasNext_of_isAt ts (Bool.and_eq_true_iff.mp h).2

section

variable {body : Option (Recording Unit)} {body' : Option (Thunk Reader)}
  (hbody : RecordsBody depth limit body body')
include hbody

theorem records_repetition :
    Records (fun _ => true) 1 depth limit (repetition body) (Grammar.repetition body') := by
  have hnode : Records (fun _ => true) 1 depth limit (node .repetition (do repeatCount; element body))
      (.node .repetition (.seq Grammar.repeatCount (Grammar.element body'))) := by
    refine Records.node Kind.noConfusion ?_ fun _ => rfl
    exact records_repeatCount.seq ((records_element hbody).spare_le (by omega)) fun _ _ => rfl
  refine Records.choose (fun _ hs => ?_) (hnode.mono fun _ _ => rfl)
    ((records_element hbody).mono fun _ _ => rfl)
  rw [repetition, run_bind (asks_isAt Kind.noConfusion hs), run_bind (asks_isAt Kind.noConfusion hs)]
  rfl

theorem records_concatenation :
    Records (fun _ => true) 1 depth limit (concatenation body) (Grammar.concatenation body') := by
  refine RecordsFrom.start ?_ fun _ => rfl
  exact RecordsFrom.wrapped Kind.noConfusion asks_startsRepetition
    ((records_repetition hbody).mono fun _ _ => rfl) Nat.one_pos _

theorem records_alternationOver :
    Records (fun _ => true) 2 depth limit (alternationOver body) (Grammar.alternationOver body') := by
  refine RecordsFrom.start ?_ fun _ => rfl
  refine RecordsFrom.wrappedAfter Kind.noConfusion (asks_isAt Kind.noConfusion)
    (records_concatenation hbody) (Records.mono (p := Reader.hasNext) ?_ Reader.hasNext_of_isAt) _
  exact records_bump.seq (records_concatenation hbody) fun _ _ => rfl

end

/-- An alternation of some levels is recorded where the openers around it leave as many. -/
theorem records_alternation (levels : Nat) {depth limit : Nat} (h : depth + levels = limit) :
    Records (fun _ => true) 2 depth limit (alternation levels) (Grammar.alternation levels) := by
  induction levels generalizing depth with
  | zero => exact records_alternationOver (.atLimit (by omega))
  | succ levels ih => exact records_alternationOver (.below (by omega) (ih (by omega)))

/-! ### Rules -/

theorem records_stray : Records Reader.inRule spare depth limit (node .error bump) (.node .error .token) :=
  (records_bump.node Kind.noConfusion Reader.hasNext_comments).mono Reader.hasNext_of_inRule

theorem records_elements (limit : Nat) :
    Records (fun _ => true) 1 0 limit (elements limit) (.node .elements (Grammar.elements limit)) := by
  have halternation := records_alternation limit (Nat.zero_add limit)
  refine Records.node Kind.noConfusion ?_ fun _ => rfl
  refine halternation.seq (Records.many asks_inRule ?_ _) fun _ _ => rfl
  exact records_stray.seq halternation fun _ _ => rfl

theorem records_definedAs : Records (fun _ => true) spare depth limit definedAs
    (.choose Grammar.isAtDefinedAs (.node .definedAs .token) .nothing) := by
  have hnode : Records Reader.hasNext spare depth limit (node .definedAs bump) (.node .definedAs .token) :=
    records_bump.node Kind.noConfusion Reader.hasNext_comments
  refine Records.choose (fun _ hs => ?_) (hnode.mono fun ts h => ?_) records_nothing
  · rw [definedAs, run_bind (asks_isAt Kind.noConfusion hs), run_bind (asks_isAt Kind.noConfusion hs)]
    rfl
  · have hdefined := (Bool.and_eq_true_iff.mp h).2
    rw [Grammar.isAtDefinedAs, Bool.or_eq_true] at hdefined
    rcases hdefined with hdefined | hdefined <;> exact Reader.hasNext_of_isAt ts hdefined

/-- A rule is recorded with the comments before it. -/
theorem records_rule (limit : Nat) :
    Records Reader.hasNext 0 0 limit (rule limit) (.seq .comments (Grammar.rule limit)) := by
  have hinside := records_name.seq (records_definedAs.seq (records_elements limit) fun _ _ => rfl)
    fun (ts : List Token) (_ : Reader.hasNext ts = true) => rfl
  have hnode : Records Reader.hasNext 0 0 limit
      (node .rule (do name; definedAs; elements limit)) _ :=
    hinside.node Kind.noConfusion Reader.hasNext_comments
  -- the body of a rule may be given another span, of which the record does not tell
  have hrule : Records Reader.hasNext 0 0 limit (node .rule (do name; definedAs; elements limit))
      (.seq .comments (Grammar.rule limit)) := by
    refine hnode.congr fun ts _ => ⟨?_, rfl⟩
    simp only [Reader.seq, Reader.node, Reader.mapTrees, Grammar.rule, Grammar.ruleHead, Tree.branch,
      Tree.eventsAll_append, Tree.eventsAll, Tree.events, List.append_assoc, List.append_nil,
      List.cons_append, List.nil_append]
  intro ts hts
  obtain ⟨new, hnew, hrun⟩ := hrule ts hts
  refine ⟨new, hnew, fun {s} hs hroom => ?_⟩
  rw [rule, run_bind (get_run s), if_neg (not_not_intro hs.depth_eq)]
  exact hrun hs hroom

theorem records_junkItem : Records Reader.hasNext spare depth limit junkItem Grammar.junkItem := by
  refine Records.choose (fun {ts s} hts hs => ?_)
    (records_name.mono fun _ h => (Bool.and_eq_true_iff.mp h).1)
    (records_bump.mono fun _ h => (Bool.and_eq_true_iff.mp h).1)
  obtain ⟨t, ht⟩ := Option.isSome_iff_exists.mp hts
  rw [junkItem, run_bind (current_of_next? hs ht), Grammar.isNextName, ht, Option.any_some]
  simp only [beq_iff_eq]

theorem records_junk : Records Reader.hasNext spare depth limit junk Grammar.junk := by
  refine Records.node Kind.noConfusion ?_ Reader.hasNext_comments
  refine records_junkItem.seq (Records.many asks_inRule ?_ _) fun _ _ => rfl
  exact records_junkItem.mono Reader.hasNext_of_inRule

theorem records_entry (limit : Nat) :
    Records Reader.hasNext 0 0 limit (entry limit) (Grammar.entry limit) := by
  have hchoose : Records Reader.hasNext 0 0 limit (entry limit)
      (.choose Grammar.isAtRule (.seq .comments (Grammar.rule limit)) Grammar.junk) := by
    refine Records.choose (fun {ts s} hts hs => ?_)
      ((records_rule limit).mono fun _ h => (Bool.and_eq_true_iff.mp h).1)
      (records_junk.mono fun _ h => (Bool.and_eq_true_iff.mp h).1)
    obtain ⟨t, ht⟩ := Option.isSome_iff_exists.mp hts
    rw [entry, run_bind (current_of_next? hs ht), Grammar.isAtRule, ht, Option.any_some]
    simp only [Bool.and_eq_true, beq_iff_eq]
  refine hchoose.congr fun ts _ => ?_
  have hat : Grammar.isAtRule (Reader.comments.read ts).2 = Grammar.isAtRule ts := by
    rw [Grammar.isAtRule, Reader.next?_comments, Grammar.isAtRule]
  rw [Grammar.entry, Reader.seq_read]
  by_cases h : Grammar.isAtRule ts = true
  · rw [Reader.choose_pos (hat.trans h), Reader.choose_pos h]
    exact ⟨rfl, rfl⟩
  · have h := Bool.eq_false_iff.mpr h
    rw [Reader.choose_neg (hat.trans h), Reader.choose_neg h, Grammar.junk, Reader.node_read,
      Reader.node_read, Reader.comments_comments]
    exact ⟨rfl, rfl⟩

theorem records_ruleList (limit : Nat) :
    Records (fun _ => true) 0 0 limit (do many hasNext (entry limit); flush) (Grammar.ruleList limit) :=
  (Records.many asks_hasNext (records_entry limit) _).seq records_flush fun _ _ => rfl

end Recording

/-- The tokens for a recorder are those of the tree and the end of the text. -/
theorem Token.exists_filter_scanFrom (start : Nat) (atLineStart : Bool) (text : Text) :
    ∃ stop : Token, stop.kind = .endOfText ∧
      (scanFrom start atLineStart text).filter (fun t => t.kind != .whitespace && t.kind != .newline) =
        (scanFrom start atLineStart text).filter isSignificant ++ [stop] := by
  fun_induction scanFrom start atLineStart text with
  | case1 start atLineStart => exact ⟨_, rfl, rfl⟩
  | case2 start atLineStart c cs token ih =>
    obtain ⟨stop, hstop, ih⟩ := ih
    refine ⟨stop, hstop, ?_⟩
    have hkind : token.kind ≠ .endOfText := by
      intro hend
      have hlexical := lexeme_lexical c cs
      rw [show (lexeme c cs).1 = .endOfText from hend] at hlexical
      exact absurd hlexical Bool.false_ne_true
    have hsame : token.isSignificant = (token.kind != .whitespace && token.kind != .newline) := by
      rw [isSignificant, bne_iff_ne.mpr hkind, Bool.and_true]
    rw [List.filter_cons, List.filter_cons, ih, hsame]
    split <;> rfl

namespace Recorder

variable {counts : Nat} (words limit : Nat) {source : Text}

/-- A recorder that has begun the root stands before the tokens of the tree. -/
theorem standsAt_marked_ofText (hcount : counts = 0 ∨ (Token.significant source).length < counts) :
    StandsAt 0 limit (Token.significant source)
      { ofText words limit source with counts : Recorder }.marked where
  ahead := Token.exists_filter_scanFrom 0 true source
  kinds := by
    intro t ht hkind
    have hlexical := Token.lexical_of_mem_significant ht
    rw [hkind] at hlexical
    exact absurd hlexical Bool.false_ne_true
  begun := List.cons_ne_nil _ _
  depth_eq := rfl
  limit_eq := rfl
  counted := hcount

end Recorder

/-- A text is recorded without a fault if the words have room for its events and its tokens.  Every token is
taken but the end of the text, every marker is closed, no opener is left open, and apart from tombstones the
record is that of the tree. -/
theorem recordCounting_run (limit : Nat) (source : Text) :
    ∃ events, Event.written events = (parse limit source).root.events ∧
      ∀ {counts words : Nat}, counts = 0 ∨ (Token.significant source).length < counts →
        words = 0 ∨ events.length ≤ words →
        recordCounting counts words limit source = .ok
          { Recorder.ofText words limit source with
            counts
            position := (Token.significant source).length
            events } := by
  obtain ⟨new, hnew, hrun⟩ := Recording.records_ruleList limit (Token.significant source) rfl
  refine ⟨.start .sourceFile :: (new ++ [.finish]), ?_, fun {counts words} hcount hwords => ?_⟩
  · exact Tree.written_node Kind.noConfusion hnew _
  · let s : Recorder := { Recorder.ofText words limit source with counts }
    have hroom : s.HasRoom (new.length + 1 + 1) := by
      rw [List.length_cons, List.length_append, List.length_singleton] at hwords
      rcases hwords with hwords | hwords
      · exact Or.inl hwords
      · refine Or.inr ?_
        show 0 + (new.length + 1 + 1) ≤ words
        omega
    have hstart : Recording.start s = .ok (0, s.marked) := Recording.mark_run (hroom.mono (by omega))
    have hinside := hrun (Recorder.standsAt_marked_ofText words limit hcount)
      (Recorder.HasRoom.marked (hroom.mono (by omega)))
    have hcomplete := Recording.complete_run s (Token.significant source).length new .sourceFile
    rw [Grammar.leavesAll_ruleList] at hinside
    rw [recordCounting, Recording.sourceFile, Recording.node, Recording.run_bind hstart,
      Recording.run_bind hinside]
    refine (congrArg (Except.map Prod.snd) hcomplete).trans ?_
    show Except.ok (Recorder.mk _ _ _ _ (0 + _) ([] ++ _) _ _) = _
    rw [Nat.zero_add, List.nil_append]

end Abnf
