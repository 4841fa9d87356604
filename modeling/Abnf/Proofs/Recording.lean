/-
Records of trees.

A recorder and a reader go through the same tokens, the one writing events and the other making trees.
Wherever the recorder stands, what it writes is the record of the trees that the reader makes there, apart
from tombstones, and both take the same tokens (`Recording.Records`).  It closes every marker that it hands
out, leaves the depth as it was, and meets no fault.  This is put together from the parts of the grammar as
the grammar is: for steps one after the other, for a choice, for a node and for a loop.

What a recorder writes does not depend on what it wrote before, but its markers have to fit into words.  A
tombstone that is taken back needed room as well, so a recorder needs a little more room than it writes
events.  Its counts fit into words if the number of the tokens does, since a loop takes a token in each round.
-/
import Abnf.Proofs.Reading
import Abnf.Syntax.Recorder

namespace Abnf

namespace Event

/-- Whether an event tells nothing about the tree. -/
def isTombstone (e : Event) : Bool := e == .start .tombstone

/-- The events that tell something about the tree. -/
def written (events : List Event) : List Event := events.filter (!·.isTombstone)

theorem written_append (events events' : List Event) :
    written (events ++ events') = written events ++ written events' := List.filter_append ..

theorem written_cons {e : Event} (h : e ≠ .start .tombstone) (events : List Event) :
    written (e :: events) = e :: written events := by
  refine List.filter_cons_of_pos ?_
  rw [isTombstone, Bool.not_eq_true', beq_eq_false_iff_ne]
  exact h

theorem written_tombstone (events : List Event) :
    written (.start .tombstone :: events) = written events := rfl

theorem tombstone_not_mem_written (events : List Event) : .start .tombstone ∉ written events :=
  fun h => absurd (List.mem_filter.mp h).2 Bool.false_ne_true

/-- What a node that is given up leaves behind. -/
def left : List Event → List Event
  | [] => []
  | e :: events => .start .tombstone :: e :: events

theorem written_left (events : List Event) : written (left events) = written events := by
  cases events <;> rfl

theorem length_left_of_ne_nil {events : List Event} (h : events ≠ []) :
    (left events).length = events.length + 1 := by
  cases events with
  | nil => exact absurd rfl h
  | cons e events => rfl

theorem written_map_ofToken (ts : List Token) : written (ts.map ofToken) = ts.map ofToken := by
  refine List.filter_eq_self.mpr fun e he => ?_
  obtain ⟨t, -, rfl⟩ := List.mem_map.mp he
  rfl

end Event

namespace Tree

mutual

/-- The record of a tree. -/
def events : Tree → List Event
  | leaf token => [.ofToken token]
  | node kind _ children => .start kind :: (eventsAll children ++ [.finish])

/-- The records of some trees, one after the other. -/
def eventsAll : List Tree → List Event
  | [] => []
  | t :: ts => events t ++ eventsAll ts

end

theorem eventsAll_append (ts us : List Tree) :
    eventsAll (ts ++ us) = eventsAll ts ++ eventsAll us := by
  induction ts with
  | nil => rfl
  | cons t ts ih => rw [List.cons_append, eventsAll, eventsAll, ih, List.append_assoc]

theorem eventsAll_map_leaf (ts : List Token) : eventsAll (ts.map leaf) = ts.map Event.ofToken := by
  induction ts with
  | nil => rfl
  | cons t ts ih =>
    rw [List.map_cons, eventsAll, ih]
    rfl

theorem eventsAll_ne_nil {ts : List Tree} (h : ts ≠ []) : eventsAll ts ≠ [] := by
  cases ts with
  | nil => exact absurd rfl h
  | cons t ts =>
    refine List.append_ne_nil_of_left_ne_nil ?_ _
    cases t with
    | leaf token => exact List.cons_ne_nil _ _
    | node kind span children => exact List.cons_ne_nil _ _

theorem eventsAll_singleton (t : Tree) : eventsAll [t] = t.events := List.append_nil _

/-- What is written from the start of a node to its end. -/
theorem written_node {kind : Kind} (hkind : kind ≠ .tombstone) {events : List Event} {trees : List Tree}
    (h : Event.written events = eventsAll trees) (span : Span) :
    Event.written (.start kind :: (events ++ [.finish])) = (node kind span trees).events := by
  rw [Event.written_cons fun heq => hkind (Event.start.inj heq), Event.written_append, h]
  rfl

end Tree

namespace Recorder

/-- A recorder after some tokens and events. -/
def after (s : Recorder) (taken : Nat) (new : List Event) : Recorder :=
  { s with position := s.position + taken, events := s.events ++ new }

/-- A recorder after some tokens, with other events. -/
def withEvents (s : Recorder) (taken : Nat) (events : List Event) : Recorder :=
  { s with position := s.position + taken, events }

/-- A recorder that has handed out a marker. -/
def marked (s : Recorder) : Recorder :=
  { s with events := s.events ++ [.start .tombstone], markers := s.events.length :: s.markers }

/-- Whether the places of some more events can be told apart. -/
def HasRoom (s : Recorder) (count : Nat) : Prop := s.words = 0 ∨ s.events.length + count ≤ s.words

/-- Whether a recorder, at a depth and with a limit, stands before some tokens, which it can count, and the
end of the text. -/
structure StandsAt (depth limit : Nat) (ts : List Token) (s : Recorder) : Prop where
  ahead : ∃ stop : Token, stop.kind = .endOfText ∧ s.ahead = ts ++ [stop]
  kinds : ∀ t ∈ ts, t.kind ≠ .endOfText
  begun : s.events ≠ []
  depth_eq : s.depth = depth
  limit_eq : s.limit = limit
  counted : s.counts = 0 ∨ ts.length < s.counts

variable {depth limit : Nat} {ts : List Token} {s : Recorder}

theorem after_after (s : Recorder) (m n : Nat) (new new' : List Event) :
    (s.after m new).after n new' = s.after (m + n) (new ++ new') := by
  simp only [after, Nat.add_assoc, List.append_assoc]

/-- What is ahead after some of the tokens were taken. -/
theorem ahead_withEvents (s : Recorder) (count : Nat) (events : List Event) :
    (s.withEvents count events).ahead = s.ahead.drop count := by
  rw [ahead, ahead, List.drop_drop]
  rfl

theorem HasRoom.mono {m n : Nat} (h : s.HasRoom n) (hle : m ≤ n) : s.HasRoom m := by
  rcases h with h | h
  · exact Or.inl h
  · exact Or.inr (by omega)

theorem HasRoom.after {count taken : Nat} {new : List Event} (h : s.HasRoom (new.length + count)) :
    (s.after taken new).HasRoom count := by
  rcases h with h | h
  · exact Or.inl h
  · refine Or.inr ?_
    show (s.events ++ new).length + count ≤ s.words
    rw [List.length_append]
    omega

theorem HasRoom.marked {count : Nat} (h : s.HasRoom (count + 1)) : s.marked.HasRoom count := by
  rcases h with h | h
  · exact Or.inl h
  · refine Or.inr ?_
    show (s.events ++ [_]).length + count ≤ s.words
    rw [List.length_append, List.length_singleton]
    omega

/-- A marker that fits into a word is the place of its event. -/
theorem HasRoom.mod_eq (h : s.HasRoom 1) :
    s.events.length % s.words = s.events.length := by
  rcases h with h | h
  · rw [h, Nat.mod_zero]
  · exact Nat.mod_eq_of_lt (by omega)

theorem StandsAt.marked (h : StandsAt depth limit ts s) : StandsAt depth limit ts s.marked where
  ahead := h.ahead
  kinds := h.kinds
  begun := List.append_ne_nil_of_right_ne_nil _ (List.cons_ne_nil _ _)
  depth_eq := h.depth_eq
  limit_eq := h.limit_eq
  counted := h.counted

/-- After the tokens of some trees a recorder stands before the tokens that these leave. -/
theorem StandsAt.after {taken rest : List Token} (h : StandsAt depth limit (taken ++ rest) s)
    (new : List Event) : StandsAt depth limit rest (s.after taken.length new) where
  ahead := by
    obtain ⟨stop, hstop, hahead⟩ := h.ahead
    refine ⟨stop, hstop, ?_⟩
    show s.tokens.drop (s.position + taken.length) = _
    rw [← List.drop_drop, show s.tokens.drop s.position = _ from hahead, List.append_assoc,
      List.drop_left]
  kinds := fun t ht => h.kinds t (List.mem_append_right _ ht)
  begun := List.append_ne_nil_of_left_ne_nil h.begun _
  depth_eq := h.depth_eq
  limit_eq := h.limit_eq
  counted := by
    refine h.counted.imp_right fun hcount => ?_
    rw [List.length_append] at hcount
    show rest.length < s.counts
    omega

theorem StandsAt.read (h : StandsAt depth limit ts s) (r : Reader) (new : List Event) :
    StandsAt depth limit (r.read ts).2 (s.after (Tree.leavesAll (r.read ts).1).length new) := by
  refine StandsAt.after ?_ new
  rw [r.keeps]
  exact h

theorem StandsAt.deeper (h : StandsAt depth limit ts s) :
    StandsAt (depth + 1) limit ts { s with depth := s.depth + 1 } where
  ahead := h.ahead
  kinds := h.kinds
  begun := h.begun
  depth_eq := congrArg (· + 1) h.depth_eq
  limit_eq := h.limit_eq
  counted := h.counted

theorem StandsAt.length_ahead (h : StandsAt depth limit ts s) : s.ahead.length = ts.length + 1 := by
  obtain ⟨stop, -, hahead⟩ := h.ahead
  rw [hahead, List.length_append, List.length_singleton]

end Recorder

namespace Recording

open Recorder

variable {depth limit : Nat} {ts : List Token} {s : Recorder}

theorem run_bind {α β : Type} {x : Recording α} {f : α → Recording β} {s s' : Recorder} {a : α}
    (h : x s = .ok (a, s')) : (x >>= f) s = f a s' := by
  show Except.bind (x s) _ = _
  rw [h]
  rfl

theorem get_run (s : Recorder) : (get : Recording Recorder) s = .ok (s, s) := rfl

/-! ### What comes next -/

/-- What is left of the tokens after the comments, up to the end of the text. -/
theorem dropWhile_ahead (h : StandsAt depth limit ts s) :
    ∃ stop : Token, stop.kind = .endOfText ∧
      s.ahead.dropWhile Token.isComment = ts.dropWhile Token.isComment ++ [stop] ∧
      s.ahead.takeWhile Token.isComment = ts.takeWhile Token.isComment := by
  obtain ⟨stop, hstop, hahead⟩ := h.ahead
  have hnot : stop.isComment = false := by
    rw [Token.isComment, hstop]
    rfl
  refine ⟨stop, hstop, ?_, ?_⟩
  · rw [hahead]
    clear h hahead
    induction ts with
    | nil => rw [List.nil_append, List.dropWhile_cons_of_neg (by rw [hnot]; decide)]; rfl
    | cons t ts ih =>
      by_cases ht : t.isComment = true
      · rw [List.cons_append, List.dropWhile_cons_of_pos ht, List.dropWhile_cons_of_pos ht, ih]
      · rw [List.cons_append, List.dropWhile_cons_of_neg ht, List.dropWhile_cons_of_neg ht,
          List.cons_append]
  · rw [hahead]
    clear h hahead
    induction ts with
    | nil => rw [List.nil_append, List.takeWhile_cons_of_neg (by rw [hnot]; decide)]; rfl
    | cons t ts ih =>
      by_cases ht : t.isComment = true
      · rw [List.cons_append, List.takeWhile_cons_of_pos ht, List.takeWhile_cons_of_pos ht, ih]
      · rw [List.cons_append, List.takeWhile_cons_of_neg ht, List.takeWhile_cons_of_neg ht]

/-- The current token is the next one, or the end of the text. -/
theorem current_run (h : StandsAt depth limit ts s) :
    ∃ t, current s = .ok (t, s) ∧ (∀ u, Reader.next? ts = some u → t = u) ∧
      (Reader.next? ts = none → t.kind = .endOfText) := by
  obtain ⟨stop, hstop, hdrop, -⟩ := dropWhile_ahead h
  cases hnext : ts.dropWhile Token.isComment with
  | nil =>
    refine ⟨stop, ?_, fun u hu => ?_, fun _ => hstop⟩
    · rw [current, hdrop, hnext]
      rfl
    · rw [Reader.next?, hnext] at hu
      exact absurd hu (Option.some_ne_none u).symm
  | cons t rest =>
    refine ⟨t, ?_, fun u hu => ?_, fun hnone => ?_⟩
    · rw [current, hdrop, hnext]
      rfl
    · rw [Reader.next?, hnext] at hu
      exact Option.some.inj hu
    · rw [Reader.next?, hnext] at hnone
      exact absurd hnone (Option.some_ne_none t)

theorem current_of_next? (h : StandsAt depth limit ts s) {t : Token} (ht : Reader.next? ts = some t) :
    current s = .ok (t, s) := by
  obtain ⟨u, hrun, heq, -⟩ := current_run h
  rw [hrun, heq t ht]

/-- The kind that a recorder sees. -/
theorem peek_run (h : StandsAt depth limit ts s) :
    peek s = .ok ((Reader.peek? ts).getD .endOfText, s) := by
  obtain ⟨t, hrun, hsome, hnone⟩ := current_run h
  rw [peek, run_bind hrun]
  show Except.ok (_, s) = _
  cases hnext : Reader.next? ts with
  | none =>
    rw [Reader.peek?, hnext, hnone hnext]
    cases t.atLineStart <;> rfl
  | some u =>
    rw [Reader.peek?, hnext, hsome u hnext]
    cases hline : u.atLineStart
    · simp [hline]
    · simp [hline]

/-- Whether a question of a recorder is answered by a condition on the tokens. -/
def Asks (c : Recording Bool) (p : List Token → Bool) : Prop :=
  ∀ {depth limit : Nat} {ts : List Token} {s : Recorder}, StandsAt depth limit ts s →
    c s = .ok (p ts, s)

theorem asks_isAt {kind : Kind} (hkind : kind ≠ .endOfText) : Asks (isAt kind) (Reader.isAt kind) := by
  intro depth limit ts s h
  rw [isAt, run_bind (peek_run h), Reader.isAt]
  show Except.ok (_, s) = _
  cases Reader.peek? ts with
  | none =>
    rw [Option.getD_none, beq_eq_false_iff_ne.mpr hkind.symm]
    rfl
  | some k => rfl

theorem kind_of_peek? (h : StandsAt depth limit ts s) {kind : Kind}
    (hkind : Reader.peek? ts = some kind) : kind ≠ .endOfText := by
  rw [Reader.peek?, Option.bind_eq_some_iff] at hkind
  obtain ⟨t, ht, hkind⟩ := hkind
  have hmem : t ∈ ts := (List.dropWhile_sublist _).subset (List.mem_of_head? ht)
  split at hkind
  · exact absurd hkind (Option.some_ne_none kind).symm
  · rw [← Option.some.inj hkind]
    exact h.kinds t hmem

theorem asks_inRule : Asks inRule Reader.inRule := by
  intro depth limit ts s h
  rw [inRule, run_bind (peek_run h), Reader.inRule]
  show Except.ok (_, s) = _
  cases hpeek : Reader.peek? ts with
  | none => rfl
  | some k =>
    have hne := kind_of_peek? h hpeek
    rw [Option.getD_some, Option.isSome_some, bne_iff_ne.mpr hne]

theorem asks_hasNext : Asks hasNext Reader.hasNext := by
  intro depth limit ts s h
  obtain ⟨t, hrun, hsome, hnone⟩ := current_run h
  rw [hasNext, run_bind hrun, Reader.hasNext]
  show Except.ok (_, s) = _
  cases hnext : Reader.next? ts with
  | none =>
    rw [hnone hnext]
    rfl
  | some u =>
    have hmem : u ∈ ts := (List.dropWhile_sublist _).subset (List.mem_of_head? hnext)
    rw [hsome u hnext, Option.isSome_some, bne_iff_ne.mpr (h.kinds u hmem)]

theorem asks_startsRepetition :
    Asks (do return startsRepetition (← peek)) Grammar.isAtRepetition := by
  intro depth limit ts s h
  rw [run_bind (peek_run h)]
  show Except.ok (_, s) = _
  refine congrArg (fun b => Except.ok (b, s)) ?_
  simp only [Grammar.isAtRepetition, Grammar.isAtRepeat, Grammar.isAtElement, Grammar.isAtValue,
    Reader.isAt]
  cases Reader.peek? ts with
  | none => rfl
  | some kind => cases kind <;> rfl

/-! ### Steps and readers -/

/-- Whether a step of a recorder, at a depth and with a limit, records what a reader reads, wherever a
condition on the tokens holds.  Besides the room for its events it may need some spare room. -/
def Records (p : List Token → Bool) (spare depth limit : Nat) (x : Recording Unit) (r : Reader) : Prop :=
  ∀ ts, p ts = true → ∃ new, Event.written new = Tree.eventsAll (r.read ts).1 ∧
    ∀ {s : Recorder}, StandsAt depth limit ts s → s.HasRoom (new.length + spare) →
      x s = .ok ((), s.after (Tree.leavesAll (r.read ts).1).length new)

variable {p q : List Token → Bool} {spare : Nat} {x y : Recording Unit} {r r' : Reader}

theorem Records.mono (h : Records p spare depth limit x r) (hpq : ∀ ts, q ts = true → p ts = true) :
    Records q spare depth limit x r :=
  fun ts hq => h ts (hpq ts hq)

theorem Records.spare_le (h : Records p spare depth limit x r) {spare' : Nat} (hle : spare ≤ spare') :
    Records p spare' depth limit x r := by
  intro ts hp
  obtain ⟨new, hnew, hrun⟩ := h ts hp
  exact ⟨new, hnew, fun hs hroom => hrun hs (hroom.mono (by omega))⟩

/-- Readers that make the same record of the same tokens are not told apart. -/
theorem Records.congr (h : Records p spare depth limit x r)
    (hread : ∀ ts, p ts = true → Tree.eventsAll (r'.read ts).1 = Tree.eventsAll (r.read ts).1 ∧
      (r'.read ts).2 = (r.read ts).2) : Records p spare depth limit x r' := by
  intro ts hp
  obtain ⟨hevents, hrest⟩ := hread ts hp
  have hleaves : Tree.leavesAll (r'.read ts).1 = Tree.leavesAll (r.read ts).1 := by
    have hkeeps := (r'.keeps ts).trans (r.keeps ts).symm
    rw [hrest] at hkeeps
    exact List.append_cancel_right hkeeps
  rw [hevents, hleaves]
  exact h ts hp

/-- One step after another. -/
theorem Records.seq (hx : Records p spare depth limit x r) (hy : Records q spare depth limit y r')
    (hq : ∀ ts, p ts = true → q (r.read ts).2 = true) :
    Records p spare depth limit (do x; y) (.seq r r') := by
  intro ts hp
  obtain ⟨new, hnew, hrun⟩ := hx ts hp
  obtain ⟨new', hnew', hrun'⟩ := hy (r.read ts).2 (hq ts hp)
  refine ⟨new ++ new', ?_, ?_⟩
  · rw [Event.written_append, hnew, hnew']
    exact (Tree.eventsAll_append _ _).symm
  · intro s hs hroom
    rw [List.length_append] at hroom
    rw [run_bind (hrun hs (hroom.mono (by omega))), hrun' (hs.read r new), after_after]
    · show _ = Except.ok ((), s.after (Tree.leavesAll (_ ++ _)).length _)
      rw [Tree.leavesAll_append, List.length_append]
    · exact HasRoom.after (hroom.mono (by omega))

theorem records_nothing : Records p spare depth limit (return ()) .nothing := by
  intro ts _
  refine ⟨[], rfl, fun {s} hs _ => ?_⟩
  show Except.ok ((), s) = Except.ok ((), { s with position := s.position + 0, events := s.events ++ [] })
  rw [List.append_nil]
  rfl

/-- A step that is one of two, as a condition on the tokens says. -/
theorem Records.choose {z : Recording Unit}
    (hz : ∀ {ts : List Token} {s : Recorder}, p ts = true → StandsAt depth limit ts s →
      z s = (if q ts then x else y) s)
    (hx : Records (fun ts => p ts && q ts) spare depth limit x r)
    (hy : Records (fun ts => p ts && !q ts) spare depth limit y r') :
    Records p spare depth limit z (.choose q r r') := by
  intro ts hp
  by_cases hq : q ts = true
  · obtain ⟨new, hnew, hrun⟩ := hx ts (Bool.and_eq_true_iff.mpr ⟨hp, hq⟩)
    rw [Reader.choose_pos hq]
    refine ⟨new, hnew, fun hs hroom => ?_⟩
    rw [hz hp hs, if_pos hq]
    exact hrun hs hroom
  · have hq := Bool.eq_false_iff.mpr hq
    obtain ⟨new, hnew, hrun⟩ := hy ts (Bool.and_eq_true_iff.mpr ⟨hp, by rw [hq]; rfl⟩)
    rw [Reader.choose_neg hq]
    refine ⟨new, hnew, fun hs hroom => ?_⟩
    rw [hz hp hs, if_neg (by rw [hq]; exact Bool.false_ne_true)]
    exact hrun hs hroom

/-- A question, and a step for each of its answers. -/
theorem Records.ask {c : Recording Bool} (hc : Asks c q)
    (hx : Records (fun ts => p ts && q ts) spare depth limit x r)
    (hy : Records (fun ts => p ts && !q ts) spare depth limit y r') :
    Records p spare depth limit (do if ← c then x else y) (.choose q r r') :=
  Records.choose (fun _ hs => run_bind (hc hs)) hx hy

/-! ### Tokens -/

theorem flush_run (depth limit : Nat) (ts : List Token) :
    ∃ new, Event.written new = Tree.eventsAll (Reader.comments.read ts).1 ∧
      ∀ {s : Recorder}, StandsAt depth limit ts s →
        flush s = .ok ((), s.after (Tree.leavesAll (Reader.comments.read ts).1).length new) := by
  refine ⟨(ts.takeWhile Token.isComment).map Event.ofToken, ?_, fun {s} hs => ?_⟩
  · rw [Event.written_map_ofToken]
    exact (Tree.eventsAll_map_leaf _).symm
  · obtain ⟨stop, -, hdrop, htake⟩ := dropWhile_ahead hs
    have hleaves : Tree.leavesAll (Reader.comments.read ts).1 = ts.takeWhile Token.isComment :=
      Tree.leavesAll_map_leaf _
    rw [flush, hdrop, htake, hleaves]
    cases ts.dropWhile Token.isComment <;> rfl

theorem records_flush : Records (fun _ => true) spare depth limit flush .comments := by
  intro ts _
  obtain ⟨new, hnew, hrun⟩ := flush_run depth limit ts
  exact ⟨new, hnew, fun hs _ => hrun hs⟩

theorem shift_run {t : Token} {rest : List Token} (h : StandsAt depth limit (t :: rest) s) :
    shift s = .ok ((), s.after 1 [Event.ofToken t]) := by
  obtain ⟨stop, -, hahead⟩ := h.ahead
  rw [shift, hahead]
  exact if_neg (h.kinds t List.mem_cons_self)

theorem bump_run (depth limit : Nat) {ts : List Token} (hnext : Reader.hasNext ts = true) :
    ∃ new, Event.written new = Tree.eventsAll (Reader.token.read ts).1 ∧
      ∀ {s : Recorder}, StandsAt depth limit ts s →
        bump s = .ok ((), s.after (Tree.leavesAll (Reader.token.read ts).1).length new) := by
  obtain ⟨t, ht⟩ := Option.isSome_iff_exists.mp hnext
  obtain ⟨rest, hrest⟩ := Reader.comments_of_next? ht
  obtain ⟨new, hnew, hrun⟩ := flush_run depth limit ts
  rw [Reader.token_read hrest]
  refine ⟨new ++ [Event.ofToken t], ?_, fun {s} hs => ?_⟩
  · rw [Event.written_append, hnew, Tree.eventsAll_append]
    rfl
  · have hstands := hs.read .comments new
    rw [hrest] at hstands
    rw [bump, run_bind (hrun hs), shift_run hstands, after_after, Tree.leavesAll_append,
      List.length_append]
    rfl

theorem records_bump : Records Reader.hasNext spare depth limit bump .token := by
  intro ts hnext
  obtain ⟨new, hnew, hrun⟩ := bump_run depth limit hnext
  exact ⟨new, hnew, fun hs _ => hrun hs⟩

theorem records_ifAt {kind : Kind} (hkind : kind ≠ .endOfText) :
    Records (fun _ => true) spare depth limit (ifAt kind) (.ifAt kind) := by
  refine Records.ask (asks_isAt hkind) (records_bump.mono fun ts h => ?_) records_nothing
  exact Reader.hasNext_of_isAt ts (Bool.and_eq_true_iff.mp h).2

/-! ### Markers -/

theorem mark_run (hroom : s.HasRoom 1) : mark s = .ok (s.events.length, s.marked) := by
  rw [mark, hroom.mod_eq, marked]

/-- The latest marker is taken back if it is the place of a tombstone. -/
theorem close_of_tombstone {marker : Nat} {markers : List Nat} (hmarkers : s.markers = marker :: markers)
    (hget : s.events[marker]? = some (.start .tombstone)) : close marker s = .ok ((), { s with markers }) := by
  rw [close, hmarkers]
  dsimp only
  rw [if_neg (not_not_intro rfl), if_neg (not_not_intro hget)]

/-- What becomes of a recorder that has handed out a marker and then closes it, if it goes on with other
events. -/
theorem close_run (s : Recorder) (taken : Nat) (new : List Event) :
    close s.events.length (s.marked.after taken new) =
      .ok ((), s.withEvents taken (s.events ++ Event.start .tombstone :: new)) := by
  have hevents : (s.marked.after taken new).events = s.events ++ Event.start .tombstone :: new :=
    (List.append_cons _ _ _).symm
  have hget : (s.marked.after taken new).events[s.events.length]? = some (.start .tombstone) := by
    rw [hevents, List.getElem?_append_right (Nat.le_refl _), Nat.sub_self]
    rfl
  rw [← hevents]
  exact close_of_tombstone rfl hget

/-- A node that is completed has a start and an end. -/
theorem complete_run (s : Recorder) (taken : Nat) (new : List Event) (kind : Kind) :
    complete s.events.length kind (s.marked.after taken new) =
      .ok ((), s.after taken (.start kind :: (new ++ [.finish]))) := by
  have hset : (s.events ++ Event.start .tombstone :: new).set s.events.length (.start kind) ++ [.finish] =
      s.events ++ Event.start kind :: (new ++ [.finish]) := by
    rw [List.set_append_right _ _ (Nat.le_refl _), Nat.sub_self, List.append_assoc]
    rfl
  rw [complete, run_bind (close_run s taken new)]
  exact congrArg (fun events => Except.ok ((), s.withEvents taken events)) hset

/-- Of a node that is given up, the tombstone is left behind unless nothing is in it. -/
theorem abandon_run (s : Recorder) (taken : Nat) (new : List Event) :
    abandon s.events.length (s.marked.after taken new) = .ok ((), s.after taken (Event.left new)) := by
  rw [abandon, run_bind (close_run s taken new)]
  cases new with
  | nil =>
    have hlength : s.events.length + 1 = (s.events ++ [Event.start .tombstone]).length := by
      rw [List.length_append, List.length_singleton]
    have hback : (s.events ++ [Event.start .tombstone]).dropLast = s.events ++ [] := by
      rw [List.dropLast_concat, List.append_nil]
    have htaken : (if s.events.length + 1 = (s.events ++ [Event.start .tombstone]).length then
        s.withEvents taken (s.events ++ [Event.start .tombstone]).dropLast
        else s.withEvents taken (s.events ++ [Event.start .tombstone])) = s.after taken [] := by
      rw [if_pos hlength, hback]
      rfl
    exact congrArg (fun next => Except.ok ((), next)) htaken
  | cons e new =>
    have hlength : s.events.length + 1 ≠
        (s.events ++ Event.start .tombstone :: e :: new).length := by
      rw [List.length_append, List.length_cons, List.length_cons]
      omega
    exact congrArg (fun next => Except.ok ((), next)) (if_neg hlength)

/-- Whether what is done with a marker records what a reader reads. -/
def RecordsFrom (p : List Token → Bool) (spare depth limit : Nat) (f : Nat → Recording Unit)
    (r : Reader) : Prop :=
  ∀ ts, p ts = true → ∃ new, Event.written new = Tree.eventsAll (r.read ts).1 ∧
    0 < new.length + spare ∧
    ∀ {s : Recorder}, StandsAt depth limit ts s → s.HasRoom (new.length + spare) →
      f s.events.length s.marked = .ok ((), s.after (Tree.leavesAll (r.read ts).1).length new)

/-- A node is begun after the comments before it. -/
theorem RecordsFrom.start {f : Nat → Recording Unit} (h : RecordsFrom p spare depth limit f r)
    (hp : ∀ ts, p (Reader.comments.read ts).2 = p ts) :
    Records p spare depth limit (start >>= f) (.seq .comments r) := by
  intro ts hts
  obtain ⟨comments, hcomments, hflush⟩ := flush_run depth limit ts
  obtain ⟨new, hnew, hpos, hrun⟩ := h (Reader.comments.read ts).2 (by rw [hp, hts])
  refine ⟨comments ++ new, ?_, fun {s} hs hroom => ?_⟩
  · rw [Event.written_append, hcomments, hnew]
    exact (Tree.eventsAll_append _ _).symm
  · rw [List.length_append] at hroom
    have hbegin : Recording.start s =
        mark (s.after (Tree.leavesAll (Reader.comments.read ts).1).length comments) := by
      have hempty : s.events.isEmpty = false := by
        rw [List.isEmpty_eq_false_iff]
        exact hs.begun
      rw [Recording.start, run_bind (get_run s), hempty]
      exact run_bind (hflush hs)
    have hroom' : (s.after (Tree.leavesAll (Reader.comments.read ts).1).length comments).HasRoom
        (new.length + spare) := HasRoom.after (hroom.mono (by omega))
    rw [run_bind (hbegin.trans (mark_run (hroom'.mono hpos))),
      hrun (hs.read .comments comments) hroom', after_after]
    show _ = Except.ok ((), s.after (Tree.leavesAll (_ ++ _)).length _)
    rw [Tree.leavesAll_append, List.length_append]

theorem RecordsFrom.congr {f g : Nat → Recording Unit} (h : RecordsFrom p spare depth limit g r)
    (heq : ∀ {ts : List Token} {s : Recorder}, p ts = true → StandsAt depth limit ts s →
      f s.events.length s.marked = g s.events.length s.marked) :
    RecordsFrom p spare depth limit f r := by
  intro ts hts
  obtain ⟨new, hnew, hpos, hrun⟩ := h ts hts
  exact ⟨new, hnew, hpos, fun hs hroom => (heq hts hs).trans (hrun hs hroom)⟩

/-- What is done in a node, with the end of the node. -/
theorem Records.complete {kind : Kind} (hkind : kind ≠ .tombstone)
    (hx : Records p (spare + 1) depth limit x r) :
    RecordsFrom p spare depth limit (fun m => do x; complete m kind)
      (.mapTrees (fun trees => [.branch kind trees]) (by simp) r) := by
  intro ts hts
  obtain ⟨new, hnew, hrun⟩ := hx ts hts
  refine ⟨.start kind :: (new ++ [.finish]), ?_, ?_, fun {s} hs hroom => ?_⟩
  · exact (Tree.written_node hkind hnew _).trans (Tree.eventsAll_singleton _).symm
  · rw [List.length_cons]
    omega
  · rw [List.length_cons, List.length_append, List.length_singleton] at hroom
    have hmarked : s.marked.HasRoom (new.length + (spare + 1)) :=
      HasRoom.marked (hroom.mono (by omega))
    refine (run_bind (hrun hs.marked hmarked)).trans ?_
    rw [complete_run]
    show _ = Except.ok ((), s.after (Tree.leavesAll [Tree.branch kind (r.read ts).1]).length _)
    rw [Tree.leavesAll_cons, Tree.leavesAll_nil, List.append_nil, Tree.leaves_branch]

/-- A node with what is in it. -/
theorem Records.node {kind : Kind} (hkind : kind ≠ .tombstone)
    (hx : Records p (spare + 1) depth limit x r) (hp : ∀ ts, p (Reader.comments.read ts).2 = p ts) :
    Records p spare depth limit (node kind x) (.node kind r) :=
  (hx.complete hkind).start hp

/-! ### Loops -/

/-- A loop goes round once more than what is left of it after a round. -/
theorem rounds_of_round {c : Recording Bool} {next last : Recorder} {count : Nat} (hc : c s = .ok (true, s))
    (hx : x s = .ok ((), next)) (hless : next.ahead.length < s.ahead.length)
    (hrest : rounds c x next = .ok (count, last)) : rounds c x s = .ok (count + 1, last) := by
  rw [rounds, hc]
  dsimp only
  rw [hx]
  dsimp only
  rw [if_pos hless, hrest]
  rfl

/-- A loop goes round as often as the reader finds a part. -/
theorem rounds_run {c : Recording Bool} (hc : Asks c q) (hx : Records q spare depth limit x r)
    (hq : Reader.Consumes q r) (ts : List Token) :
    ∃ new, Event.written new = Tree.eventsAll (Reader.readParts q r hq ts).1.flatten ∧
      ∀ {s : Recorder}, StandsAt depth limit ts s → (new ≠ [] → s.HasRoom (new.length + spare)) →
        rounds c x s = .ok ((Reader.readParts q r hq ts).1.length,
          s.after (Tree.leavesAll (Reader.readParts q r hq ts).1.flatten).length new) := by
  fun_induction Reader.readParts q r hq ts with
  | case1 ts hts more ih =>
    obtain ⟨new, hnew, hrun⟩ := hx ts hts
    obtain ⟨new', hnew', hrun'⟩ := ih
    have hne : new ≠ [] := by
      rintro rfl
      exact Tree.eventsAll_ne_nil (Reader.trees_ne_nil (hq ts hts)) hnew.symm
    refine ⟨new ++ new', ?_, fun {s} hs hroom => ?_⟩
    · rw [Event.written_append, hnew, hnew', List.flatten_cons, Tree.eventsAll_append]
    · have hroom := hroom (List.append_ne_nil_of_left_ne_nil hne _)
      rw [List.length_append] at hroom
      have hnext := hs.read r new
      have hless : (s.after (Tree.leavesAll (r.read ts).1).length new).ahead.length < s.ahead.length := by
        rw [hnext.length_ahead, hs.length_ahead]
        exact Nat.succ_lt_succ (hq ts hts)
      have hlater := hrun' hnext fun _ => HasRoom.after (hroom.mono (by omega))
      rw [after_after] at hlater
      rw [List.flatten_cons, Tree.leavesAll_append, List.length_append]
      exact rounds_of_round ((hc hs).trans (by rw [hts])) (hrun hs (hroom.mono (by omega))) hless hlater
  | case2 ts hts =>
    refine ⟨[], rfl, fun {s} hs _ => ?_⟩
    rw [rounds, hc hs, Bool.eq_false_iff.mpr hts]
    show Except.ok (0, s) = Except.ok (0, s.withEvents 0 (s.events ++ []))
    rw [List.append_nil]
    rfl

/-- A loop, of which only the trees count. -/
theorem Records.many {c : Recording Bool} (hc : Asks c q) (hx : Records q spare depth limit x r)
    (hq : Reader.Consumes q r) :
    Records (fun _ => true) spare depth limit (many c x) (.many q r hq) := by
  intro ts _
  obtain ⟨new, hnew, hrun⟩ := rounds_run hc hx hq ts
  refine ⟨new, hnew, fun {s} hs hroom => ?_⟩
  rw [Recording.many, run_bind (show repeatWhile c x s = _ from hrun hs fun _ => hroom)]
  rfl

/-- The rounds of a loop are counted if their number fits. -/
theorem countWhile_run {c : Recording Bool} {count : Nat} {s' : Recorder}
    (h : rounds c x s = .ok (count, s')) (hcount : s'.counts = 0 ∨ count < s'.counts) :
    countWhile c x s = .ok (count, s') := by
  have hfits : ¬(s'.counts ≠ 0 ∧ s'.counts ≤ count) := by omega
  rw [countWhile, run_bind (show repeatWhile c x s = _ from h), run_bind (get_run s'), if_neg hfits]
  rfl

/-- A loop of which two or more rounds become a node. -/
theorem RecordsFrom.wrapped {kind : Kind} (hkind : kind ≠ .tombstone) {c : Recording Bool} (hc : Asks c q)
    (hx : Records q spare depth limit x r) (hspare : 0 < spare) (hq : Reader.Consumes q r) :
    RecordsFrom (fun _ => true) spare depth limit
      (fun m => do
        let count ← countWhile c x
        if 2 ≤ count then Recording.complete m kind else abandon m)
      (.wrapped kind q r hq) := by
  intro ts _
  obtain ⟨new, hnew, hrun⟩ := rounds_run hc hx hq ts
  have hleaves : Tree.leavesAll ((Reader.wrapped kind q r hq).read ts).1 =
      Tree.leavesAll (Reader.readParts q r hq ts).1.flatten := Reader.leavesAll_wrapParts _ _
  have hfits : ∀ {s : Recorder}, StandsAt depth limit ts s →
      s.counts = 0 ∨ (Reader.readParts q r hq ts).1.length < s.counts := fun hs =>
    hs.counted.imp_right (Nat.lt_of_le_of_lt (Reader.length_readParts_le q r hq ts))
  rw [hleaves]
  by_cases hcount : 2 ≤ (Reader.readParts q r hq ts).1.length
  · refine ⟨.start kind :: (new ++ [.finish]), ?_, by omega, fun {s} hs hroom => ?_⟩
    · have htrees : ((Reader.wrapped kind q r hq).read ts).1 =
          [.branch kind (Reader.readParts q r hq ts).1.flatten] := if_pos hcount
      rw [htrees, Tree.eventsAll_singleton]
      exact Tree.written_node hkind hnew _
    · rw [List.length_cons, List.length_append, List.length_singleton] at hroom
      have hrounds := hrun hs.marked fun _ => HasRoom.marked (hroom.mono (by omega))
      refine (run_bind (countWhile_run hrounds (hfits (s := s) hs))).trans ?_
      rw [if_pos hcount, complete_run]
  · refine ⟨Event.left new, ?_, by omega, fun {s} hs hroom => ?_⟩
    · have htrees : ((Reader.wrapped kind q r hq).read ts).1 =
          (Reader.readParts q r hq ts).1.flatten := if_neg hcount
      rw [htrees, Event.written_left, hnew]
    · have hrounds := hrun hs.marked fun hne => HasRoom.marked (by
        rw [Event.length_left_of_ne_nil hne] at hroom
        exact hroom.mono (by omega))
      refine (run_bind (countWhile_run hrounds (hfits (s := s) hs))).trans ?_
      rw [if_neg hcount, abandon_run]

/-- A step and a loop after it, which become a node if the loop goes round. -/
theorem RecordsFrom.wrappedAfter {kind : Kind} (hkind : kind ≠ .tombstone) {c : Recording Bool}
    (hc : Asks c q) {first : Reader} (hx : Records (fun _ => true) spare depth limit x first)
    (hy : Records q spare depth limit y r) (hq : Reader.Consumes q r) :
    RecordsFrom (fun _ => true) (spare + 1) depth limit
      (fun m => do
        x
        if ← c then
          Recording.many c y
          Recording.complete m kind
        else abandon m)
      (.wrappedAfter kind first q r hq) := by
  intro ts _
  obtain ⟨new, hnew, hrun⟩ := hx ts rfl
  have hleaves : Tree.leavesAll ((Reader.wrappedAfter kind first q r hq).read ts).1 =
      Tree.leavesAll ((first.read ts).1 ++ (Reader.readParts q r hq (first.read ts).2).1.flatten) :=
    Reader.leavesAll_wrapParts _ _
  by_cases hagain : q (first.read ts).2 = true
  · obtain ⟨new', hnew', hrun'⟩ := (hy.many hc hq) (first.read ts).2 rfl
    have htrees : ((Reader.wrappedAfter kind first q r hq).read ts).1 =
        [.branch kind ((first.read ts).1 ++ (Reader.readParts q r hq (first.read ts).2).1.flatten)] := by
      refine if_pos ?_
      rw [Reader.readParts, dif_pos hagain, List.length_cons, List.length_cons]
      omega
    refine ⟨.start kind :: (new ++ new' ++ [.finish]), ?_, by omega, fun {s} hs hroom => ?_⟩
    · rw [htrees, Tree.eventsAll_singleton]
      refine Tree.written_node hkind ?_ _
      rw [Event.written_append, hnew, hnew', Tree.eventsAll_append]
      rfl
    · rw [List.length_cons, List.length_append, List.length_append, List.length_singleton] at hroom
      have hmarked : s.marked.HasRoom (new.length + (new'.length + spare)) :=
        HasRoom.marked (hroom.mono (by omega))
      have hnext := hs.marked.read first new
      refine (run_bind (hrun hs.marked (hmarked.mono (by omega)))).trans ?_
      rw [run_bind (hc hnext), if_pos hagain, run_bind (hrun' hnext hmarked.after), after_after,
        complete_run, hleaves, Tree.leavesAll_append, List.length_append]
      rfl
  · have hparts : Reader.readParts q r hq (first.read ts).2 = ([], (first.read ts).2) := by
      rw [Reader.readParts, dif_neg hagain]
    have htrees : ((Reader.wrappedAfter kind first q r hq).read ts).1 = (first.read ts).1 := by
      show Reader.wrapParts kind ((first.read ts).1 :: (Reader.readParts q r hq (first.read ts).2).1) = _
      rw [hparts, Reader.wrapParts, if_neg (by simp), List.flatten_cons, List.flatten_nil,
        List.append_nil]
    rw [htrees]
    refine ⟨Event.left new, ?_, by omega, fun {s} hs hroom => ?_⟩
    · rw [Event.written_left, hnew]
    · have hmarked : s.marked.HasRoom (new.length + spare) := by
        by_cases hne : new = []
        · rw [hne] at hroom ⊢
          exact HasRoom.marked (hroom.mono (Nat.le_refl _))
        · rw [Event.length_left_of_ne_nil hne] at hroom
          exact HasRoom.marked (hroom.mono (by omega))
      refine (run_bind (hrun hs.marked hmarked)).trans ?_
      rw [run_bind (hc (hs.marked.read first new)), if_neg hagain, abandon_run]

end Recording

end Abnf
