/-
How the events of a record are nested.

The starts and the ends of nodes in a record are like brackets.  Between the start of a node and its end there are
whole nodes, tokens and tombstones (`Event.Balanced`), and the two belong together (`Event.Pairs`).  In a balanced
list each start has one end and each end has one start, tombstones have none, and nodes do not overlap
(`Event.Balanced.nested`).  That an end belongs to no other start comes from the builder: it keeps a stack of the
open nodes, and a balanced list leaves the stack as it was (`Event.Balanced.run`).

The record of a text is balanced, since it is that of a tree apart from tombstones, and these may stand anywhere.
This is so as long as the places of the events and the counts fit into words.  With words of 32 bits there are texts
for which they do not.
-/
import Abnf.Proofs.Building
import Abnf.Proofs.RecordLength

namespace Abnf

namespace Arena.Builder

theorem opened_token (b : Builder) (kind : Kind) (span : Span) : (b.token kind span).opened = b.opened := by
  show (b.push kind span).opened = b.opened
  rw [push]
  split <;> rfl

theorem finishNode?_of_opened {b : Builder} {id : Nat} {opened : List Nat} (h : b.opened = id :: opened) :
    ∃ b', b.finishNode? = some b' ∧ b'.opened = opened := by
  rw [finishNode?, h]
  exact ⟨_, rfl, rfl⟩

end Arena.Builder

namespace Event

open Arena

/-- Whether events are those of whole nodes, with tokens and tombstones among them. -/
inductive Balanced : List Event → Prop
  | nil : Balanced []
  | token (kind : Kind) (span : Span) {events : List Event} :
      Balanced events → Balanced (.token kind span :: events)
  | tombstone {events : List Event} : Balanced events → Balanced (.start .tombstone :: events)
  | node {kind : Kind} {inside events : List Event} : kind ≠ .tombstone → Balanced inside → Balanced events →
      Balanced (.start kind :: (inside ++ .finish :: events))

/-- Whether a node starts at a place of a record and ends at another one. -/
def Pairs (events : List Event) (i j : Nat) : Prop :=
  ∃ before kind inside after, events = before ++ .start kind :: (inside ++ .finish :: after) ∧
    kind ≠ .tombstone ∧ Balanced inside ∧ before.length = i ∧ i + inside.length + 1 = j

/-- Whether each node of a record starts once and ends once, and nodes are inside of each other or apart. -/
structure Nested (events : List Event) : Prop where
  starts : ∀ i kind, events[i]? = some (.start kind) → kind ≠ .tombstone → ∃! j, Pairs events i j
  ends : ∀ j, events[j]? = some .finish → ∃! i, Pairs events i j
  inside : ∀ i j i' j', Pairs events i j → Pairs events i' j' → i < i' → i' < j → j' < j

/-! ### Balanced events -/

variable {events : List Event}

theorem Balanced.append {more : List Event} (h : Balanced events) (hmore : Balanced more) :
    Balanced (events ++ more) := by
  induction h with
  | nil => exact hmore
  | token kind span _ ih => exact ih.token kind span
  | tombstone _ ih => exact ih.tombstone
  | node hkind hinside _ _ ih =>
    rw [List.cons_append, List.append_assoc, List.cons_append]
    exact hinside.node hkind ih

theorem balanced_of_tombstones (h : ∀ e ∈ events, e = .start .tombstone) : Balanced events := by
  induction events with
  | nil => exact .nil
  | cons e events ih =>
    rw [h e List.mem_cons_self]
    exact (ih fun e' he' => h e' (List.mem_cons_of_mem e he')).tombstone

/-- Tombstones may stand anywhere. -/
theorem Balanced.of_written (h : Balanced (written events)) : Balanced events := by
  generalize hwritten : written events = kept at h
  have htombstone : ∀ {front : List Event}, (∀ e ∈ front, ¬(!e.isTombstone) = true) → Balanced front := by
    intro front hfront
    refine balanced_of_tombstones fun e he => ?_
    simpa [isTombstone] using hfront e he
  -- along what is kept: before each event of it there may be tombstones
  induction h generalizing events with
  | nil => exact htombstone (List.filter_eq_nil_iff.mp hwritten)
  | token kind span _ ih =>
    obtain ⟨front, rest, rfl, hfront, -, hrest⟩ := List.filter_eq_cons_iff.mp hwritten
    exact (htombstone hfront).append ((ih hrest).token kind span)
  | tombstone _ _ =>
    obtain ⟨_, _, -, -, hkept, -⟩ := List.filter_eq_cons_iff.mp hwritten
    exact absurd hkept (by decide)
  | node hkind _ _ ihinside ih =>
    obtain ⟨front, rest, rfl, hfront, -, hrest⟩ := List.filter_eq_cons_iff.mp hwritten
    obtain ⟨inside, outside, rfl, hinside, houtside⟩ := List.filter_eq_append_iff.mp hrest
    obtain ⟨last, after, rfl, hlast, -, hafter⟩ := List.filter_eq_cons_iff.mp houtside
    have hnode := ((ihinside hinside).append (htombstone hlast)).node hkind (ih hafter)
    rw [List.append_assoc] at hnode
    exact (htombstone hfront).append hnode

/-- A builder closes what it opens in a balanced list. -/
theorem Balanced.run (h : Balanced events) (b : Builder) :
    ∃ b', events.foldlM Builder.step? b = some b' ∧ b'.opened = b.opened := by
  induction h generalizing b with
  | nil => exact ⟨b, rfl, rfl⟩
  | token kind span _ ih =>
    obtain ⟨b', hrun, hopened⟩ := ih (b.token kind span)
    exact ⟨b', hrun, hopened.trans (b.opened_token kind span)⟩
  | tombstone _ ih => exact ih b
  | @node kind inside events hkind _ _ ihinside ih =>
    obtain ⟨b₁, hinside, hopened⟩ := ihinside (b.startNode kind)
    obtain ⟨b₂, hfinish, hclosed⟩ := Builder.finishNode?_of_opened hopened
    obtain ⟨b₃, hrun, hlast⟩ := ih b₂
    refine ⟨b₃, ?_, hlast.trans hclosed⟩
    rw [List.foldlM_cons, Builder.step?_start hkind, Option.bind_eq_bind, Option.bind_some,
      List.foldlM_append, hinside, Option.bind_eq_bind, Option.bind_some, List.foldlM_cons]
    exact (congrArg (Option.bind · _) hfinish).trans hrun

/-- A new builder finds no open node at an end after a balanced list. -/
theorem Balanced.foldlM_append_finish (h : Balanced events) (words : Nat) (rest : List Event) :
    (events ++ .finish :: rest).foldlM Builder.step? (.empty words) = none := by
  obtain ⟨b, hrun, hopened⟩ := h.run (.empty words)
  have hfinish : b.step? .finish = none := by
    show b.finishNode? = none
    rw [Builder.finishNode?, hopened]
    rfl
  rw [List.foldlM_append, hrun, Option.bind_eq_bind, Option.bind_some, List.foldlM_cons, hfinish]
  rfl

/-- No end follows a balanced list that is part of one. -/
theorem Balanced.not_append_finish (h : Balanced events) (rest : List Event) :
    ¬Balanced (events ++ .finish :: rest) := by
  intro hwhole
  obtain ⟨b, hrun, -⟩ := hwhole.run (.empty 0)
  exact absurd (hrun.symm.trans (h.foldlM_append_finish 0 rest)) (Option.some_ne_none b)

/-- The end that follows a balanced list is the first one that is not in the list. -/
theorem Balanced.eq_of_append_finish {events' rest rest' : List Event} (h : Balanced events)
    (h' : Balanced events') (heq : events ++ .finish :: rest = events' ++ .finish :: rest') : events = events' := by
  rcases List.append_eq_append_iff.mp heq with ⟨more, rfl, hmore⟩ | ⟨more, rfl, hmore⟩
  · cases more with
    | nil => exact (List.append_nil _).symm
    | cons e more =>
      rw [List.cons_append, List.cons.injEq] at hmore
      rw [← hmore.1] at h'
      exact absurd h' (h.not_append_finish more)
  · cases more with
    | nil => exact List.append_nil _
    | cons e more =>
      rw [List.cons_append, List.cons.injEq] at hmore
      rw [← hmore.1] at h
      exact absurd h (h'.not_append_finish more)

/-! ### Pairs -/

section Pairs
variable {i j : Nat}

theorem Pairs.start (h : Pairs events i j) : ∃ kind, kind ≠ .tombstone ∧ events[i]? = some (.start kind) := by
  obtain ⟨before, kind, inside, after, rfl, hkind, -, rfl, -⟩ := h
  exact ⟨kind, hkind, by simp⟩

theorem Pairs.finish (h : Pairs events i j) : events[j]? = some .finish := by
  obtain ⟨before, kind, inside, after, rfl, -, -, rfl, rfl⟩ := h
  have hplace : before.length + inside.length + 1 = before.length + (inside.length + 1) := by omega
  rw [hplace, List.getElem?_append_right (by omega), Nat.add_sub_cancel_left]
  simp

theorem Pairs.lt (h : Pairs events i j) : i < j := by
  obtain ⟨_, _, _, _, -, -, -, -, hj⟩ := h
  omega

/-- A pair in a part of a record is one of the record. -/
theorem Pairs.within (h : Pairs events i j) (front back : List Event) :
    Pairs (front ++ (events ++ back)) (front.length + i) (front.length + j) := by
  obtain ⟨before, kind, inside, after, rfl, hkind, hinside, rfl, hj⟩ := h
  refine ⟨front ++ before, kind, inside, after ++ back, ?_, hkind, hinside, ?_, by omega⟩
  · simp
  · rw [List.length_append]

theorem Pairs.eq_of_start {j' : Nat} (h : Pairs events i j) (h' : Pairs events i j') : j = j' := by
  obtain ⟨before, kind, inside, after, heq, -, hinside, hi, rfl⟩ := h
  obtain ⟨before', kind', inside', after', heq', -, hinside', hi', rfl⟩ := h'
  obtain ⟨-, hnode⟩ := List.append_inj (heq.symm.trans heq') (hi.trans hi'.symm)
  rw [hinside.eq_of_append_finish hinside' (List.cons.inj hnode).2]

/-- Whether an event is the start or the end of a node. -/
def Paired (events : List Event) (i : Nat) : Prop := ∃ j, Pairs events i j ∨ Pairs events j i

theorem Paired.within (h : Paired events i) (front back : List Event) :
    Paired (front ++ (events ++ back)) (front.length + i) := by
  obtain ⟨j, hstart | hend⟩ := h
  · exact ⟨front.length + j, Or.inl (hstart.within front back)⟩
  · exact ⟨front.length + j, Or.inr (hend.within front back)⟩

theorem Paired.cons (h : Paired events i) (e : Event) : Paired (e :: events) (i + 1) := by
  have hall := h.within [e] []
  rw [List.append_nil, List.length_singleton, Nat.add_comm] at hall
  exact hall

/-- Starts and ends come in pairs. -/
theorem Balanced.paired (h : Balanced events) {e : Event} (he : events[i]? = some e)
    (hstart : e ≠ .start .tombstone) (htoken : ∀ kind span, e ≠ .token kind span) : Paired events i := by
  induction h generalizing i with
  | nil => exact nomatch he
  | @token kind span events _ ih =>
    cases i with
    | zero => exact absurd (Option.some.inj he).symm (htoken kind span)
    | succ i => exact (ih he).cons _
  | @tombstone events _ ih =>
    cases i with
    | zero => exact absurd (Option.some.inj he).symm hstart
    | succ i => exact (ih he).cons _
  | @node kind inside events hkind hinside _ ihinside ih =>
    have hnode : Pairs (.start kind :: (inside ++ .finish :: events)) 0 (0 + inside.length + 1) :=
      ⟨[], kind, inside, events, rfl, hkind, hinside, rfl, rfl⟩
    cases i with
    | zero => exact ⟨_, Or.inl hnode⟩
    | succ i =>
      rw [List.getElem?_cons_succ] at he
      by_cases hlt : i < inside.length
      · rw [List.getElem?_append_left hlt] at he
        have hfront := (ihinside he).within [] (.finish :: events)
        rw [List.nil_append, List.length_nil, Nat.zero_add] at hfront
        exact hfront.cons _
      · rw [List.getElem?_append_right (by omega)] at he
        obtain ⟨k, hk⟩ : ∃ k, i = inside.length + k := ⟨i - inside.length, by omega⟩
        rw [hk, Nat.add_sub_cancel_left] at he
        cases k with
        | zero =>
          rw [hk, Nat.add_zero]
          rw [Nat.zero_add] at hnode
          exact ⟨0, Or.inr hnode⟩
        | succ k =>
          have hafter := ((ih he).cons .finish).within inside []
          rw [List.append_nil, ← hk] at hafter
          exact hafter.cons _

/-- A node that starts inside of another one ends inside of it. -/
theorem Pairs.inside {i' j' : Nat} (h : Pairs events i j) (h' : Pairs events i' j') (hlt : i < i') (hlt' : i' < j) :
    j' < j := by
  obtain ⟨before, kind, inside, after, rfl, -, hinside, rfl, rfl⟩ := h
  obtain ⟨p, rfl⟩ : ∃ p, i' = before.length + 1 + p := ⟨i' - (before.length + 1), by omega⟩
  obtain ⟨kind', hkind', hstart⟩ := h'.start
  have hget : inside[p]? = some (.start kind') := by
    rw [List.append_cons, List.getElem?_append_right (by simp), List.length_append, List.length_singleton,
      Nat.add_sub_cancel_left, List.getElem?_append_left (by omega)] at hstart
    exact hstart
  obtain ⟨q, hq | hq⟩ := hinside.paired hget (fun h => hkind' (Event.start.inj h)) (fun _ _ => Event.noConfusion)
  · have hall := hq.within (before ++ [.start kind]) (.finish :: after)
    rw [← List.append_cons, List.length_append, List.length_singleton] at hall
    have hlast := (List.getElem?_eq_some_iff.mp hq.finish).1
    rw [h'.eq_of_start hall]
    omega
  · rw [hq.finish] at hget
    exact nomatch hget

end Pairs

theorem Balanced.nested (h : Balanced events) : Nested events where
  starts := by
    intro i kind hi hkind
    obtain ⟨j, hj | hj⟩ := h.paired hi (fun heq => hkind (Event.start.inj heq)) (fun _ _ => Event.noConfusion)
    · exact ⟨j, hj, fun j' hj' => hj'.eq_of_start hj⟩
    · rw [hj.finish] at hi
      exact nomatch hi
  ends := by
    intro j hj
    obtain ⟨i, hi | hi⟩ := h.paired hj Event.noConfusion (fun _ _ => Event.noConfusion)
    · obtain ⟨kind, -, hstart⟩ := hi.start
      rw [hstart] at hj
      exact nomatch hj
    · refine ⟨i, hi, fun i' hi' => ?_⟩
      -- of two starts with the same end, the later one would end before it
      rcases Nat.lt_trichotomy i i' with hlt | heq | hlt
      · exact absurd (hi.inside hi' hlt hi'.lt) (Nat.lt_irrefl j)
      · exact heq.symm
      · exact absurd (hi'.inside hi hlt hi.lt) (Nat.lt_irrefl j)
  inside := fun i j i' j' hpairs hpairs' => hpairs.inside hpairs'

end Event

namespace Tree

mutual

theorem balanced_events (t : Tree) (h : .start .tombstone ∉ t.events) : Event.Balanced t.events := by
  cases t with
  | leaf t => exact Event.Balanced.nil.token t.kind t.span
  | node kind span ts =>
    rw [events] at h ⊢
    have hkind : kind ≠ .tombstone := by
      rintro rfl
      exact h List.mem_cons_self
    have hinside := balanced_eventsAll ts fun hmem => h (List.mem_cons_of_mem _ (List.mem_append_left _ hmem))
    exact hinside.node hkind .nil

theorem balanced_eventsAll (ts : List Tree) (h : .start .tombstone ∉ eventsAll ts) :
    Event.Balanced (eventsAll ts) := by
  cases ts with
  | nil => exact .nil
  | cons t ts =>
    rw [eventsAll] at h ⊢
    have hfirst := balanced_events t fun hmem => h (List.mem_append_left _ hmem)
    exact hfirst.append (balanced_eventsAll ts fun hmem => h (List.mem_append_right _ hmem))

end

end Tree

/-- A record without the tombstones of which is that of a tree is balanced. -/
theorem Event.balanced_of_written {events : List Event} {t : Tree} (h : written events = t.events) :
    Balanced events := by
  refine Balanced.of_written ?_
  rw [h]
  refine t.balanced_events ?_
  rw [← h]
  exact tombstone_not_mem_written events

/-- Whether a recorder has come to the end of a text and its record is well formed. -/
structure Recorder.WellFormed (limit : Nat) (source : Text) (r : Recorder) : Prop where
  /-- All tokens are taken but the end of the text. -/
  taken : ∃ stop : Token, stop.kind = .endOfText ∧ r.tokens = Token.significant source ++ [stop] ∧
    r.ahead = [stop]
  /-- No opener is left open. -/
  depth : r.depth = 0
  /-- Every marker was closed. -/
  markers : r.markers = []
  written : Event.written r.events = (parse limit source).root.events
  balanced : Event.Balanced r.events
  /-- Each start of a node has one end, and each end has one start. -/
  nested : Event.Nested r.events
  /-- A builder finds an open node at each end and none after the last one. -/
  built : ∀ words, ∃ b, r.events.foldlM Arena.Builder.step? (.empty words) = some b ∧ b.opened = []

/-- A recorder that has taken the tokens of a text and whose record is that of the tree is well formed. -/
theorem Recorder.wellFormed_of_written (counts words : Nat) {limit : Nat} {source : Text} {events : List Event}
    (h : Event.written events = (parse limit source).root.events) :
    WellFormed limit source { ofText words limit source with
      counts
      position := (Token.significant source).length
      events } where
  taken := by
    obtain ⟨stop, hstop, htokens⟩ := Token.exists_filter_scanFrom 0 true source
    refine ⟨stop, hstop, htokens, ?_⟩
    show List.drop _ (List.filter _ (Token.scanFrom 0 true source)) = [stop]
    rw [htokens]
    exact List.drop_left
  depth := rfl
  markers := rfl
  written := h
  balanced := Event.balanced_of_written h
  nested := (Event.balanced_of_written h).nested
  built := fun words => (Event.balanced_of_written h).run (.empty words)

/-- Every text is recorded without a fault, and its record is well formed, if nothing is too large for a word.  All
tokens are taken but the end of the text, no opener is left open, and every marker was closed, the latest one first.
Each start of a node has one end after whole nodes, each end has one start, and the starts that were given up are
gone or are tombstones, which have no end; so a builder finds an open node at each end and none after the last one.

With words of 32 bits the record is the same if its places fit into a word and the number of the tokens fits into one
with a sign.  A record is no longer than eleven texts and two events, so this is the case for every text of up to
390 million bytes. -/
theorem record_is_well_formed (limit : Nat) (source : Text) :
    ∃ r, record 0 limit source = .ok r ∧ r.WellFormed limit source ∧
      r.events.length ≤ 11 * source.byteLength + 2 ∧
      (Token.significant source).length ≤ source.byteLength ∧
      (r.events.length ≤ UInt32.size → (Token.significant source).length < UInt32.size / 2 →
        ∃ r', record32 limit source = .ok r' ∧ r'.events = r.events ∧ r'.WellFormed limit source) := by
  obtain ⟨events, hwritten, hrecord⟩ := recordCounting_run limit source
  have hrun := hrecord (Or.inl rfl) (Or.inl rfl)
  have hformed := Recorder.wellFormed_of_written 0 0 hwritten
  obtain ⟨stop, -, -, hahead⟩ := hformed.taken
  refine ⟨_, hrun, hformed, length_events_le hrun hahead, Token.length_significant_le source,
    fun hroom hcount => ?_⟩
  exact ⟨_, hrecord (Or.inr hcount) (Or.inr hroom), rfl, Recorder.wellFormed_of_written _ _ hwritten⟩

/-- A rule with a group and a stray bracket, in the record of which there are tombstones, and a line that is no
rule. -/
theorem record_is_well_formed_stray_bracket :
    let source : Text := "a = b / (c) )\n]".toList
    ∃ r : Recorder,
      record32 1 source = .ok r ∧ r.WellFormed 1 source ∧ .start .tombstone ∈ r.events ∧
        r.events[1]? = some (.start .rule) ∧ ∃! j, Event.Pairs r.events 1 j := by
  intro source
  have hrecord : (record 0 1 source).map
      (fun r => (r.events.contains (.start .tombstone), r.events[1]?)) =
        .ok (true, some (.start .rule)) := by decide +kernel
  obtain ⟨r, hr, -, hlength, htokens, hwords⟩ := record_is_well_formed 1 source
  rw [hr] at hrecord
  obtain ⟨htombstone, hrule⟩ := Prod.mk.inj (Except.ok.inj hrecord)
  obtain ⟨r', hr', hevents, hformed⟩ :=
    hwords (Nat.le_trans hlength (by decide)) (Nat.lt_of_le_of_lt htokens (by decide))
  rw [← hevents] at htombstone hrule
  exact ⟨r', hr', hformed, List.contains_iff_mem.mp htombstone, hrule,
    hformed.nested.starts 1 .rule hrule Kind.noConfusion⟩

-- A count that can hold two numbers cannot hold two repetitions.
example : recordCounting 2 0 0 "a = b c".toList = .error .countTooHigh := by decide +kernel

end Abnf
