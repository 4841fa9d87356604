/-
Markers that are too high for a word.

A marker in a word that tells `words` places apart is the place of its event modulo `words`.  The first place that
does not fit has the marker 0, which is that of the root, and the root is open all the time.  So a node that begins
there makes the root its own when it is completed (`Recording.complete_wrapped`), and when the text is over, the root
has no tombstone any more.  A recorder that goes on writes a second end for it.

A line with nothing but a stray bracket writes three events: the start of a node, the token and the end
(`Recording.entry_strayBracket`).  Such lines after each other get to each place that is one more than a multiple of
three (`Recording.rounds_strayLines`), so for a word of such a size there is a text of which the recording fails
(`recordCounting_strayLines`).  A word of 32 bits is one.
-/
import Abnf.Proofs.EventNesting

namespace Abnf

/-- Lines with nothing but a stray bracket. -/
def Text.strayLines (count : Nat) : Text := (List.replicate count [')', '\n']).flatten

theorem Text.strayLines_succ (count : Nat) : strayLines (count + 1) = ')' :: '\n' :: strayLines count := by
  rw [strayLines, List.replicate_succ, List.flatten_cons]
  rfl

theorem Text.byteLength_strayLines (count : Nat) : (strayLines count).byteLength = 2 * count := by
  induction count with
  | zero => rfl
  | succ count ih =>
    rw [strayLines_succ, byteLength, byteLength, ih]
    show 1 + (1 + _) = _
    omega

namespace Token

/-- A bracket that starts a line. -/
def strayBracket (start : Nat) : Token := ⟨.rightParen, [')'], start, true⟩

/-- The brackets of stray lines from an offset on, and the end of the text. -/
def strayBrackets (start : Nat) : Nat → List Token
  | 0 => [⟨.endOfText, [], start, true⟩]
  | count + 1 => strayBracket start :: strayBrackets (start + 2) count

/-- A stray line is a bracket and a line break. -/
theorem scanFrom_strayLine (start : Nat) (text : Text) :
    scanFrom start true (')' :: '\n' :: text) =
      strayBracket start :: ⟨.newline, ['\n'], start + 1, false⟩ :: scanFrom (start + 2) true text := by
  rw [scanFrom]
  show first start true ')' _ :: scanFrom (start + 1) false ('\n' :: text) = _
  rw [scanFrom]
  rfl

theorem filter_scanFrom_strayLines (start count : Nat) :
    (scanFrom start true (Text.strayLines count)).filter (fun t => t.kind != .whitespace && t.kind != .newline) =
      strayBrackets start count := by
  induction count generalizing start with
  | zero =>
    rw [show Text.strayLines 0 = [] from rfl, scanFrom]
    rfl
  | succ count ih =>
    rw [Text.strayLines_succ, scanFrom_strayLine, List.filter_cons_of_pos rfl,
      List.filter_cons_of_neg Bool.false_ne_true, ih, strayBrackets]

theorem length_strayBrackets (start count : Nat) : (strayBrackets start count).length = count + 1 := by
  induction count generalizing start with
  | zero => rfl
  | succ count ih => rw [strayBrackets, List.length_cons, ih]

theorem length_significant_strayLines (count : Nat) : (significant (Text.strayLines count)).length = count := by
  obtain ⟨stop, -, htokens⟩ := exists_filter_scanFrom 0 true (Text.strayLines count)
  have hlength := congrArg List.length htokens
  rw [filter_scanFrom_strayLines, length_strayBrackets, List.length_append, List.length_singleton] at hlength
  exact (Nat.succ.inj hlength).symm

/-- The first token of what is left of stray lines is no comment, and it starts a line. -/
theorem exists_strayBrackets (start count : Nat) :
    ∃ t rest, strayBrackets start count = t :: rest ∧ t.isComment = false ∧ t.atLineStart = true := by
  cases count with
  | zero => exact ⟨_, _, rfl, rfl, rfl⟩
  | succ count => exact ⟨_, _, rfl, rfl, rfl⟩

end Token

/-- A recorder that has handed out a marker for a tombstone, wherever the marker points. -/
def Recorder.markedAs (s : Recorder) (marker : Nat) : Recorder :=
  { s with events := s.events ++ [.start .tombstone], markers := marker :: s.markers }

namespace Recording

open Recorder

variable (levels : Nat) {s : Recorder} {t u : Token} {rest : List Token}

/-! ### One line -/

theorem current_of_ahead (hahead : s.ahead = t :: rest) (ht : t.isComment = false) :
    current s = .ok (t, s) := by
  rw [current, hahead, List.dropWhile_cons_of_neg (by rw [ht]; exact Bool.false_ne_true)]

theorem flush_of_ahead (hahead : s.ahead = t :: rest) (ht : t.isComment = false) :
    flush s = .ok ((), s) := by
  have hnot : ¬t.isComment = true := by rw [ht]; exact Bool.false_ne_true
  rw [flush, hahead, List.dropWhile_cons_of_neg hnot, List.takeWhile_cons_of_neg hnot]
  show Except.ok ((), { s with position := s.position + 0, events := s.events ++ [] }) = _
  rw [List.append_nil]
  rfl

theorem ahead_of_one (hahead : s.ahead = t :: rest) (events : List Event) :
    (s.withEvents 1 events).ahead = rest := by
  rw [ahead_withEvents, hahead]
  rfl

/-- No more of a line is taken where the next token starts another line. -/
theorem many_junkItem_of_ahead (hahead : s.ahead = u :: rest) (hu : u.isComment = false)
    (hline : u.atLineStart = true) : many inRule junkItem s = .ok ((), s) := by
  have hrule : inRule s = .ok (false, s) := by
    rw [inRule, peek, run_bind (run_bind (current_of_ahead hahead hu)), hline]
    rfl
  have hrounds : repeatWhile inRule junkItem s = .ok (0, s) := by
    rw [repeatWhile, rounds, hrule]
  rw [many, run_bind hrounds]
  rfl

/-- A node with the marker of the root makes the root its own. -/
theorem complete_wrapped {inside : List Event} (hevents : s.events = .start .tombstone :: inside)
    (kind : Kind) (taken : Nat) (new : List Event) :
    complete 0 kind ((s.markedAs 0).after taken new) =
      .ok ((), s.withEvents taken (.start kind :: (inside ++ .start .tombstone :: (new ++ [.finish])))) := by
  have hafter : ((s.markedAs 0).after taken new).events =
      .start .tombstone :: (inside ++ .start .tombstone :: new) := by
    show s.events ++ [.start .tombstone] ++ new = _
    rw [hevents, List.append_assoc]
    rfl
  have hclose : close 0 ((s.markedAs 0).after taken new) =
      .ok ((), s.withEvents taken (.start .tombstone :: (inside ++ .start .tombstone :: new))) := by
    rw [← hafter]
    refine close_of_tombstone rfl ?_
    rw [hafter]
    rfl
  have hlast : inside ++ Event.start .tombstone :: new ++ [.finish] =
      inside ++ .start .tombstone :: (new ++ [.finish]) := List.append_assoc ..
  rw [complete, run_bind hclose, ← hlast]
  rfl

section
variable {start count : Nat} (hahead : s.ahead = Token.strayBrackets start (count + 1))
include hahead

/-- A stray bracket is all that is taken of its line, and a node is begun and completed around it. -/
theorem entry_strayBracket (hbegun : s.events ≠ []) :
    let marker := s.events.length % s.words
    entry levels s =
      complete marker .error ((s.markedAs marker).after 1 [Event.ofToken (.strayBracket start)]) := by
  intro marker
  obtain ⟨u, rest, hrest, hu, hline⟩ := Token.exists_strayBrackets (start + 2) count
  have hmarked : (s.markedAs marker).ahead = .strayBracket start :: Token.strayBrackets (start + 2) count := hahead
  have hstart : Recording.start s = .ok (marker, s.markedAs marker) := by
    have hempty : s.events.isEmpty = false := List.isEmpty_eq_false_iff.mpr hbegun
    rw [Recording.start, run_bind (get_run s), hempty]
    exact run_bind (flush_of_ahead hahead rfl)
  have hitem : junkItem (s.markedAs marker) =
      .ok ((), (s.markedAs marker).after 1 [Event.ofToken (.strayBracket start)]) := by
    rw [junkItem, run_bind (current_of_ahead hmarked rfl), if_neg Kind.noConfusion, bump,
      run_bind (flush_of_ahead hmarked rfl), shift, hmarked]
    exact if_neg Kind.noConfusion
  have hnext : ((s.markedAs marker).after 1 [Event.ofToken (.strayBracket start)]).ahead = u :: rest :=
    (ahead_of_one hmarked _).trans hrest
  have hstop := many_junkItem_of_ahead hnext hu hline
  rw [entry, run_bind (current_of_ahead hahead rfl), if_neg fun h => Kind.noConfusion h.1, junk, node,
    run_bind hstart, run_bind ((run_bind hitem).trans hstop)]

/-- A stray bracket whose marker fits is recorded as a node. -/
theorem entry_strayBracket_of_room (hbegun : s.events ≠ []) (hroom : s.HasRoom 1) :
    entry levels s = .ok ((), s.after 1 [.start .error, Event.ofToken (.strayBracket start), .finish]) := by
  rw [entry_strayBracket levels hahead hbegun, hroom.mod_eq]
  exact complete_run s 1 [Event.ofToken (.strayBracket start)] .error

/-- A stray bracket at the first place that does not fit takes the tombstone of the root. -/
theorem entry_strayBracket_of_full {inside : List Event} (hevents : s.events = .start .tombstone :: inside)
    (hwords : s.words = s.events.length) :
    entry levels s = .ok ((), s.withEvents 1
      (.start .error :: (inside ++ [.start .tombstone, Event.ofToken (.strayBracket start), .finish]))) := by
  have hbegun : s.events ≠ [] := by
    rw [hevents]
    exact List.cons_ne_nil _ _
  rw [entry_strayBracket levels hahead hbegun, hwords, Nat.mod_self]
  exact complete_wrapped hevents .error 1 [Event.ofToken (.strayBracket start)]

theorem rounds_of_strayBracket {events : List Event} {number : Nat} {last : Recorder}
    (hentry : entry levels s = .ok ((), s.withEvents 1 events))
    (hrest : rounds hasNext (entry levels) (s.withEvents 1 events) = .ok (number, last)) :
    rounds hasNext (entry levels) s = .ok (number + 1, last) := by
  have hnext : hasNext s = .ok (true, s) := by
    rw [hasNext, run_bind (current_of_ahead hahead rfl)]
    rfl
  refine rounds_of_round hnext hentry ?_ hrest
  rw [ahead_of_one hahead, hahead]
  exact Nat.lt_succ_self _

end

theorem rounds_of_noBracket {start : Nat} (hahead : s.ahead = Token.strayBrackets start 0) :
    rounds hasNext (entry levels) s = .ok (0, s) := by
  have hnext : hasNext s = .ok (false, s) := by
    rw [hasNext, run_bind (current_of_ahead hahead rfl)]
    rfl
  rw [rounds, hnext]

/-! ### All lines -/

/-- Stray lines are recorded up to the first place that does not fit, which is that of the last line.  With this
line, the root has a start and an end, although it is not completed. -/
theorem rounds_strayLines (start count : Nat) (hahead : s.ahead = Token.strayBrackets start (count + 1))
    {inside : List Event} (hevents : s.events = .start .tombstone :: inside) (hinside : Event.Balanced inside)
    (hwords : s.words = s.events.length + 3 * count) :
    ∃ number last, rounds hasNext (entry levels) s = .ok (number, last) ∧
      (∃ stop, last.ahead = Token.strayBrackets stop 0) ∧ last.markers = s.markers ∧
      ∃ inside', Event.Balanced inside' ∧ last.events = .start .error :: (inside' ++ [.finish]) := by
  induction count generalizing s start inside with
  | zero =>
    have hover := ahead_of_one hahead (.start .error ::
      (inside ++ [.start .tombstone, Event.ofToken (.strayBracket start), .finish]))
    have hentry := entry_strayBracket_of_full levels hahead hevents hwords
    have hlast : Event.Balanced [.start .tombstone, Event.ofToken (.strayBracket start)] :=
      (Event.Balanced.nil.token _ _).tombstone
    refine ⟨_, _, rounds_of_strayBracket levels hahead hentry (rounds_of_noBracket levels hover),
      ⟨start + 2, hover⟩, rfl, _, hinside.append hlast, ?_⟩
    rw [List.append_assoc]
    rfl
  | succ count ih =>
    have hbegun : s.events ≠ [] := by
      rw [hevents]
      exact List.cons_ne_nil _ _
    have hentry := entry_strayBracket_of_room levels hahead hbegun (Or.inr (by omega))
    have hafter : (s.after 1 [.start .error, Event.ofToken (.strayBracket start), .finish]).events =
        .start .tombstone :: (inside ++ [.start .error, Event.ofToken (.strayBracket start), .finish]) := by
      show s.events ++ _ = _
      rw [hevents]
      rfl
    have hline : Event.Balanced [.start .error, Event.ofToken (.strayBracket start), .finish] :=
      (Event.Balanced.nil.token _ _).node Kind.noConfusion .nil
    have hlength : s.words = (s.events ++
        [.start .error, Event.ofToken (.strayBracket start), .finish]).length + 3 * count := by
      rw [hwords, List.length_append]
      show _ = _ + 3 + _
      omega
    obtain ⟨number, last, hrest, hlast⟩ :=
      ih (start + 2) (ahead_of_one hahead _) hafter (hinside.append hline) hlength
    exact ⟨_, last, rounds_of_strayBracket levels hahead hentry hrest, hlast⟩

/-- Records a whole text and completes the root, whatever has become of its tombstone. -/
def sourceFileAnyway (levels : Nat) : Recording Unit := do
  let m ← start
  many hasNext (entry levels)
  flush
  overwrite m .sourceFile

end Recording

open Recording

/-- Stray lines whose last one begins at the first place that does not fit cannot be recorded.  If the root is
completed all the same, it has two ends, and a builder finds no open node at the second one. -/
theorem recordCounting_strayLines (counts limit count : Nat) :
    let source := Text.strayLines (count + 1)
    recordCounting counts (3 * count + 1) limit source = .error .noTombstone ∧
      ∃ last, sourceFileAnyway limit { Recorder.ofText (3 * count + 1) limit source with counts } = .ok ((), last) ∧
        ∀ words, Arena.build? words source.byteLength last.events = none := by
  intro source
  let s : Recorder := { Recorder.ofText (3 * count + 1) limit source with counts }
  have hstart : start s = .ok (0, s.markedAs 0) := by
    show Except.ok (0 % (3 * count + 1), s.markedAs (0 % (3 * count + 1))) = _
    rw [Nat.zero_mod]
  have hahead : (s.markedAs 0).ahead = Token.strayBrackets 0 (count + 1) :=
    Token.filter_scanFrom_strayLines 0 (count + 1)
  obtain ⟨number, last, hrounds, ⟨stop, hstop⟩, hmarkers, inside, hinside, hevents⟩ :=
    rounds_strayLines limit 0 count hahead rfl .nil (Nat.add_comm ..)
  have hmany : many hasNext (entry limit) (s.markedAs 0) = .ok ((), last) := by
    rw [many, run_bind (show repeatWhile _ _ _ = _ from hrounds)]
    rfl
  have hflush := flush_of_ahead hstop rfl
  constructor
  · have hbody : (do many hasNext (entry limit); flush : Recording Unit) (s.markedAs 0) = .ok ((), last) :=
      (run_bind hmany).trans hflush
    have hclose : close 0 last = .error .noTombstone := by
      rw [close, hmarkers, hevents]
      rfl
    rw [recordCounting, sourceFile, node, run_bind hstart, run_bind hbody, complete]
    show Except.map _ (Except.bind (close 0 last) _) = _
    rw [hclose]
    rfl
  · refine ⟨{ last with events := last.events.set 0 (.start .sourceFile) ++ [.finish] }, ?_, fun words => ?_⟩
    · rw [sourceFileAnyway, run_bind hstart, run_bind hmany, run_bind hflush]
      rfl
    · have hroot : Event.Balanced (.start .sourceFile :: (inside ++ [.finish])) :=
        hinside.node Kind.noConfusion .nil
      rw [Arena.build?, hevents]
      exact congrArg (Option.bind · _) (hroot.foldlM_append_finish words [])

/-- A text of which the record is too long for words of 32 bits, although its tokens are not too many to be counted:
each line is a stray bracket, and the last line begins at the first place that does not fit. -/
theorem record32_of_stray_lines :
    let source := Text.strayLines 1431655766
    source.byteLength = 2863311532 ∧ (Token.significant source).length < UInt32.size / 2 ∧
      record32 128 source = .error .noTombstone ∧
      ∃ last,
        sourceFileAnyway 128 { Recorder.ofText UInt32.size 128 source with counts := UInt32.size / 2 } =
          .ok ((), last) ∧
        Arena.build? UInt32.size source.byteLength last.events = none := by
  obtain ⟨hfault, last, hlast, hbuild⟩ := recordCounting_strayLines (UInt32.size / 2) 128 1431655765
  refine ⟨Text.byteLength_strayLines 1431655766, ?_, hfault, last, hlast, hbuild UInt32.size⟩
  rw [Token.length_significant_strayLines]
  decide

end Abnf
