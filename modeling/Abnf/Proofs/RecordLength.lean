/-
How long a record is.

A record has at most eleven events for each token of its text, and two more (`length_events_le`).  Nodes and
tombstones are events too, and a part of a grammar may be recorded as several nodes inside of each other and take
no token at all; but where such a part stands in a loop, a token is taken with it.  So the tokens that are ahead
pay for the events that are to come, eleven for each: these are counted with the events of a record as its load
(`Recorder.load`), and for each step of the recorder there is a bound on what it adds to the load
(`Recording.Adds`).  What takes a token makes the load less.
-/
import Abnf.Proofs.GrammarRecords
import Abnf.Proofs.Tiling

namespace Abnf

/-- The events of a record with those that the tokens ahead pay for. -/
def Recorder.load (s : Recorder) : Nat := s.events.length + 11 * s.ahead.length

namespace Recording

/-- Whether a step that comes to an end adds no more than a number to the load. -/
def Adds {α : Type} (n : Int) (x : Recording α) : Prop :=
  ∀ s s' a, x s = .ok (a, s') → (s'.load : Int) ≤ s.load + n

section Adds
variable {α β : Type} {m n : Int} {x y : Recording α} {f : α → Recording β}

/-- A sequence of steps comes to an end after each of them does. -/
theorem exists_of_bind {s s' : Recorder} {b : β} (h : (x >>= f) s = .ok (b, s')) :
    ∃ a next, x s = .ok (a, next) ∧ f a next = .ok (b, s') := by
  have hbind : Except.bind (x s) (fun r => f r.1 r.2) = .ok (b, s') := h
  cases hx : x s with
  | error fault =>
    rw [hx] at hbind
    exact nomatch hbind
  | ok r =>
    rw [hx] at hbind
    exact ⟨r.1, r.2, rfl, hbind⟩

theorem Adds.mono (h : Adds m x) (hle : m ≤ n) : Adds n x := by
  intro s s' a hx
  have := h s s' a hx
  omega

theorem Adds.bind (hx : Adds m x) (hf : ∀ a, Adds n (f a)) : Adds (m + n) (x >>= f) := by
  intro s s' b h
  obtain ⟨a, next, hnext, hrest⟩ := exists_of_bind h
  have := hx s next a hnext
  have := hf a next s' b hrest
  omega

/-- What follows a step that adds nothing. -/
theorem Adds.before (hx : Adds 0 x) (hf : ∀ a, Adds n (f a)) : Adds n (x >>= f) :=
  (hx.bind hf).mono (by omega)

theorem Adds.ite {p : Prop} [Decidable p] (hx : Adds n x) (hy : Adds n y) : Adds n (if p then x else y) := by
  split
  · exact hx
  · exact hy

theorem adds_pure (a : α) : Adds 0 (pure a) := by
  rintro s s' b ⟨⟩
  omega

theorem adds_throw (fault : Fault) : Adds n (throw fault : Recording α) := by
  intro s s' a h
  exact nomatch h

theorem adds_get : Adds 0 (get : Recording Recorder) := by
  rintro s s' b ⟨⟩
  omega

end Adds

/-! ### Tokens and markers -/

theorem adds_current : Adds 0 current := by
  intro s s' t h
  rw [current] at h
  split at h
  · exact nomatch h
  · cases h
    omega

theorem adds_peek : Adds 0 peek := adds_current.before fun _ => adds_pure _

theorem adds_isAt (kind : Kind) : Adds 0 (isAt kind) := adds_peek.before fun _ => adds_pure _

theorem load_withEvents (s : Recorder) {count : Nat} (h : count ≤ s.ahead.length) (events : List Event) :
    (s.withEvents count events).load + 11 * count = events.length + 11 * s.ahead.length := by
  rw [Recorder.load, Recorder.ahead_withEvents, List.length_drop]
  show events.length + _ + _ = _
  omega

theorem adds_flush : Adds 0 flush := by
  intro s s' _ h
  rw [flush] at h
  split at h
  · exact nomatch h
  · cases h
    have hle : (s.ahead.takeWhile Token.isComment).length ≤ s.ahead.length :=
      (List.takeWhile_sublist _).length_le
    have hload := load_withEvents s hle (s.events ++ (s.ahead.takeWhile Token.isComment).map Event.ofToken)
    rw [List.length_append, List.length_map] at hload
    show ((s.withEvents _ _).load : Int) ≤ (s.events.length + 11 * s.ahead.length : Nat) + 0
    omega

theorem adds_shift : Adds (-10) shift := by
  intro s s' _ h
  rw [shift] at h
  split at h
  · exact nomatch h
  · rename_i t rest hahead
    split at h
    · exact nomatch h
    · cases h
      have hle : 1 ≤ s.ahead.length := by
        rw [hahead, List.length_cons]
        omega
      have hload := load_withEvents s hle (s.events ++ [Event.ofToken t])
      rw [List.length_append, List.length_singleton] at hload
      show ((s.withEvents _ _).load : Int) ≤ (s.events.length + 11 * s.ahead.length : Nat) + -10
      omega

theorem adds_bump : Adds (-10) bump := adds_flush.before fun _ => adds_shift

theorem adds_mark : Adds 1 mark := by
  rintro s s' m ⟨⟩
  simp only [Recorder.load, Recorder.ahead, List.length_append, List.length_singleton]
  omega

theorem adds_start : Adds 1 start := by
  refine adds_get.before fun s => ?_
  split
  · exact adds_mark
  · exact adds_flush.before fun _ => adds_mark

theorem adds_close (marker : Nat) : Adds 0 (close marker) := by
  intro s s' _ h
  rw [close] at h
  split at h
  · cases h
  · split at h
    · cases h
    · split at h
      · cases h
      · cases h
        simp only [Recorder.load, Recorder.ahead]
        omega

theorem adds_complete (marker : Nat) (kind : Kind) : Adds 1 (complete marker kind) := by
  refine (adds_close marker).before fun _ => ?_
  rintro s s' _ ⟨⟩
  simp only [Recorder.load, Recorder.ahead, List.length_append, List.length_set, List.length_singleton]
  omega

theorem adds_abandon (marker : Nat) : Adds 0 (abandon marker) := by
  refine (adds_close marker).before fun _ => ?_
  rintro s s' _ ⟨⟩
  dsimp only
  split
  · simp only [Recorder.load, Recorder.ahead, List.length_dropLast]
    omega
  · omega

/-- A node adds its start and its end to what is in it. -/
theorem Adds.node {n : Int} {x : Recording Unit} (hx : Adds n x) (kind : Kind) : Adds (n + 2) (node kind x) :=
  (adds_start.bind fun m => hx.bind fun _ => adds_complete m kind).mono (by omega)

/-- A loop adds nothing if its rounds do not. -/
theorem Adds.repeatWhile {p : Recording Bool} {x : Recording Unit} (hx : Adds 0 x) : Adds 0 (repeatWhile p x) := by
  intro s s' count h
  have hrounds : rounds p x s = .ok (count, s') := h
  clear h
  fun_induction rounds p x s generalizing count with
  | case1 => exact nomatch hrounds
  | case2 =>
    cases hrounds
    omega
  | case3 => exact nomatch hrounds
  | case4 s _ _ next hnext hless ih =>
    cases hlast : rounds p x next with
    | error fault =>
      rw [hlast] at hrounds
      exact nomatch hrounds
    | ok last =>
      rw [hlast] at hrounds
      cases hrounds
      have := hx s next () hnext
      have := ih last.1 hlast
      omega
  | case5 => exact nomatch hrounds

theorem Adds.countWhile {p : Recording Bool} {x : Recording Unit} (hx : Adds 0 x) : Adds 0 (countWhile p x) :=
  hx.repeatWhile.before fun _ => adds_get.before fun _ => (adds_throw _).ite (adds_pure _)

theorem Adds.many {p : Recording Bool} {x : Recording Unit} (hx : Adds 0 x) : Adds 0 (many p x) :=
  hx.repeatWhile.before fun _ => adds_pure ()

/-! ### Elements -/

/-- A name adds three events and takes a token. -/
theorem adds_name : Adds (-8) name := by
  refine adds_current.before fun t => ?_
  exact adds_bump.node _

theorem adds_ifAt (kind : Kind) : Adds 0 (ifAt kind) := by
  refine (adds_isAt kind).before fun b => ?_
  split
  · exact adds_bump.mono (by omega)
  · exact adds_pure ()

theorem Adds.deeper {n : Int} {body : Option (Recording Unit)} (hbody : ∀ x ∈ body, Adds n x) :
    Adds n (deeper body) := by
  cases body with
  | none => exact adds_throw _
  | some x =>
    have hdepth : ∀ f : Nat → Nat, Adds 0 (modify fun s : Recorder => { s with depth := f s.depth }) := by
      rintro f s s' _ ⟨⟩
      simp only [Recorder.load, Recorder.ahead]
      omega
    refine (hdepth (· + 1)).before fun _ => ?_
    exact ((hbody x rfl).bind fun _ => hdepth (· - 1)).mono (by omega)

section
variable {body : Option (Recording Unit)} (hbody : ∀ x ∈ body, Adds 4 x)
include hbody

/-- What an opener encloses is paid for by the opener. -/
theorem adds_bracketed (kind close : Kind) : Adds (-4) (bracketed kind close body) := by
  have hinside : ∀ m, Adds 5 (do deeper body; ifAt close; complete m kind : Recording Unit) := fun m =>
    (Adds.deeper hbody).bind fun _ => (adds_ifAt close).before fun _ => adds_complete m kind
  have hopened : ∀ m, Adds (-5) (do
      bump
      let s ← get
      if s.limit ≤ s.depth then complete m .error
      else
        deeper body
        ifAt close
        complete m kind) := fun m =>
    adds_bump.bind fun _ => adds_get.before fun s => ((adds_complete m .error).mono (by omega)).ite (hinside m)
  exact adds_start.bind hopened

theorem adds_element : Adds 0 (element body) := by
  refine adds_peek.before fun kind => ?_
  fun_cases elementAt body kind
  · exact adds_name.mono (by omega)
  · exact (adds_bracketed hbody _ _).mono (by omega)
  · exact (adds_bracketed hbody _ _).mono (by omega)
  · exact adds_bump.mono (by omega)
  · exact adds_bump.mono (by omega)
  · exact adds_bump.mono (by omega)
  · exact adds_pure ()

end

/-! ### Repeats

The nodes of a repetition are paid for by the number or the star in it, so that one of them has to be there. -/

/-- The kind of the next token of the current rule. -/
def sees? (s : Recorder) : Option Kind :=
  (s.ahead.dropWhile Token.isComment).head?.map fun t => if t.atLineStart then .endOfText else t.kind

theorem isAt_eq {s : Recorder} {kind : Kind} (h : sees? s = some kind) (other : Kind) :
    isAt other s = .ok (kind == other, s) := by
  cases hahead : s.ahead.dropWhile Token.isComment with
  | nil =>
    rw [sees?, hahead] at h
    exact nomatch h
  | cons t rest =>
    rw [sees?, hahead] at h
    have hcurrent : current s = .ok (t, s) := by rw [current, hahead]
    have hkind : (if t.atLineStart then .endOfText else t.kind) = kind := Option.some.inj h
    rw [isAt, peek, run_bind (run_bind hcurrent), hkind]
    rfl

theorem sees_of_isAt {s s' : Recorder} {kind : Kind} {b : Bool} (h : isAt kind s = .ok (b, s')) :
    ∃ seen, sees? s = some seen := by
  cases hahead : s.ahead.dropWhile Token.isComment with
  | nil =>
    obtain ⟨_, _, hpeek, -⟩ := exists_of_bind h
    obtain ⟨_, _, hcurrent, -⟩ := exists_of_bind hpeek
    rw [current, hahead] at hcurrent
    cases hcurrent
  | cons t rest => exact ⟨_, by rw [sees?, hahead]; rfl⟩

/-- The next token is the same after the comments before it are taken. -/
theorem sees?_flush {s s' : Recorder} (h : flush s = .ok ((), s')) : sees? s' = sees? s := by
  rw [flush] at h
  split at h
  · exact nomatch h
  · cases h
    have hcut := List.takeWhile_append_dropWhile (p := Token.isComment) (l := s.ahead)
    have hdrop : s.ahead.drop (s.ahead.takeWhile Token.isComment).length = s.ahead.dropWhile Token.isComment :=
      calc s.ahead.drop (s.ahead.takeWhile Token.isComment).length
        _ = (s.ahead.takeWhile Token.isComment ++ s.ahead.dropWhile Token.isComment).drop
              (s.ahead.takeWhile Token.isComment).length := by rw [hcut]
        _ = s.ahead.dropWhile Token.isComment := List.drop_left
    have honce : (s.ahead.dropWhile Token.isComment).dropWhile Token.isComment =
        s.ahead.dropWhile Token.isComment := congrArg Prod.snd (Reader.comments_comments s.ahead)
    show sees? (s.withEvents _ _) = _
    rw [sees?, Recorder.ahead_withEvents, hdrop, honce]
    rfl

theorem sees?_start {s s' : Recorder} {m : Nat} (h : start s = .ok (m, s')) : sees? s' = sees? s := by
  obtain ⟨_, _, hget, hrest⟩ := exists_of_bind h
  cases hget
  split at hrest
  · cases hrest
    rfl
  · obtain ⟨_, next, hflush, hmark⟩ := exists_of_bind hrest
    cases hmark
    exact (sees?_flush hflush : sees? next = sees? s)

/-- Where a number or a star comes next, a repeat takes it. -/
theorem load_repeatCount {s s' : Recorder} {kind : Kind} (hsees : sees? s = some kind)
    (hkind : kind = .number ∨ kind = .star) (h : repeatCount s = .ok ((), s')) : s'.load + 8 ≤ s.load := by
  have hstar : Adds 0 (do if ← isAt .star then bump; ifAt .number : Recording Unit) :=
    (adds_isAt .star).before fun _ =>
      ((adds_bump.mono (by omega)).before fun _ => adds_ifAt .number).ite (adds_pure ())
  obtain ⟨m, s₁, hstart, hrest⟩ := exists_of_bind h
  obtain ⟨_, s₂, hinside, hcomplete⟩ := exists_of_bind hrest
  rw [← sees?_start hstart] at hsees
  have hload₁ := adds_start s s₁ m hstart
  have hload₂ := adds_complete m _ s₂ s' () hcomplete
  suffices hload : s₂.load + 10 ≤ s₁.load by omega
  obtain ⟨_, s₃, hnumber, hafter⟩ := exists_of_bind hinside
  rcases hkind with rfl | rfl
  · rw [ifAt, run_bind (isAt_eq hsees .number)] at hnumber
    have hbump := adds_bump s₁ s₃ () hnumber
    have := hstar s₃ s₂ () hafter
    omega
  · -- no number stands before the star, and nothing is taken for it
    rw [ifAt, run_bind (isAt_eq hsees .number)] at hnumber
    cases hnumber
    rw [run_bind (isAt_eq hsees .star)] at hafter
    obtain ⟨_, s₄, hbump, hnumber⟩ := exists_of_bind hafter
    have := adds_bump s₁ s₄ () hbump
    have := adds_ifAt .number s₄ s₂ () hnumber
    omega

section
variable {body : Option (Recording Unit)} (hbody : ∀ x ∈ body, Adds 4 x)
include hbody

theorem adds_repetition : Adds 0 (repetition body) := by
  intro s s' _ h
  obtain ⟨_, _, hnumber, -⟩ := exists_of_bind h
  obtain ⟨kind, hsees⟩ := sees_of_isAt hnumber
  rw [repetition, run_bind (isAt_eq hsees .number), run_bind (isAt_eq hsees .star)] at h
  split at h
  · rename_i hrepeat
    obtain ⟨m, s₁, hstart, hrest⟩ := exists_of_bind h
    obtain ⟨_, s₂, hinside, hcomplete⟩ := exists_of_bind hrest
    obtain ⟨_, s₃, hcount, helement⟩ := exists_of_bind hinside
    -- the element may take nothing: what pays is that the number or the star is still next in the node
    rw [← sees?_start hstart] at hsees
    have hload := load_repeatCount hsees (by simpa using hrepeat) hcount
    have := adds_start s s₁ m hstart
    have := adds_element hbody s₃ s₂ () helement
    have := adds_complete m _ s₂ s' () hcomplete
    omega
  · exact adds_element hbody s s' () h

theorem adds_concatenation : Adds 2 (concatenation body) := by
  have hclose : ∀ m count, Adds 1 (if 2 ≤ count then complete m .concatenation else abandon m) := fun m count =>
    (adds_complete m _).ite ((adds_abandon m).mono (by omega))
  exact adds_start.bind fun m => (adds_repetition hbody).countWhile.before fun count => hclose m count

theorem adds_alternationOver : Adds 4 (alternationOver body) := by
  have hslash : Adds 0 (do bump; concatenation body : Recording Unit) :=
    (adds_bump.bind fun _ => adds_concatenation hbody).mono (by omega)
  have hclose : ∀ m, Adds 1 (do
      if ← isAt .slash then
        many (isAt .slash) (do bump; concatenation body)
        complete m .alternation
      else abandon m) := fun m => (adds_isAt .slash).before fun b =>
    (hslash.many.before fun _ => adds_complete m _).ite ((adds_abandon m).mono (by omega))
  have hrest : ∀ m, Adds 3 _ := fun m => (adds_concatenation hbody).bind fun _ => hclose m
  exact adds_start.bind hrest

end

theorem adds_alternation (levels : Nat) : Adds 4 (alternation levels) := by
  induction levels with
  | zero => exact adds_alternationOver fun x hx => nomatch hx
  | succ levels ih =>
    refine adds_alternationOver fun x hx => ?_
    cases hx
    exact ih

/-! ### Rules -/

theorem adds_elements (levels : Nat) : Adds 6 (elements levels) := by
  have hround : Adds 0 (do node .error bump; alternation levels : Recording Unit) :=
    ((adds_bump.node .error).bind fun _ => adds_alternation levels).mono (by omega)
  have hinside : Adds 4 (do alternation levels; many inRule (do node .error bump; alternation levels)) :=
    (adds_alternation levels).bind fun _ => hround.many
  exact hinside.node .elements

theorem adds_definedAs : Adds 0 definedAs := by
  refine (adds_isAt .equals).before fun _ => (adds_isAt .incrementalEquals).before fun _ => ?_
  exact ((adds_bump.node .definedAs).mono (by omega)).ite (adds_pure ())

/-- The events of a rule that has no elements are paid for by its name. -/
theorem adds_rule (levels : Nat) : Adds 0 (rule levels) := by
  -- here all of eleven is needed: three for the name, six for the elements, two for the rule
  have hinside : Adds (-2) (do name; definedAs; elements levels : Recording Unit) :=
    adds_name.bind fun _ => adds_definedAs.before fun _ => adds_elements levels
  refine adds_get.before fun s => ?_
  split
  · exact (adds_throw _).before fun _ => hinside.node .rule
  · exact hinside.node .rule

theorem adds_junkItem : Adds (-8) junkItem :=
  adds_current.before fun _ => adds_name.ite (adds_bump.mono (by omega))

theorem adds_junk : Adds 0 junk := by
  have hinside : Adds (-8) (do junkItem; many inRule junkItem : Recording Unit) :=
    adds_junkItem.bind fun _ => (adds_junkItem.mono (by omega)).many
  exact (hinside.node .error).mono (by omega)

theorem adds_entry (levels : Nat) : Adds 0 (entry levels) :=
  adds_current.before fun _ => (adds_rule levels).ite adds_junk

theorem adds_sourceFile (levels : Nat) : Adds 2 (sourceFile levels) := by
  have hinside : Adds 0 (do many hasNext (entry levels); flush) :=
    (adds_entry levels).many.before fun _ => adds_flush
  exact hinside.node .sourceFile

end Recording

/-- A record is at most as long as eleven texts, and two events longer. -/
theorem length_events_le {counts words limit : Nat} {source : Text} {r : Recorder} {stop : Token}
    (hrecord : recordCounting counts words limit source = .ok r) (hstop : r.ahead = [stop]) :
    r.events.length ≤ 11 * source.byteLength + 2 := by
  obtain ⟨last, -, htokens⟩ := Token.exists_filter_scanFrom 0 true source
  let s : Recorder := { Recorder.ofText words limit source with counts }
  have hbefore : s.load = 11 * ((Token.significant source).length + 1) := by
    show 0 + 11 * (List.drop 0 (List.filter _ (Token.scanFrom 0 true source))).length = _
    rw [List.drop_zero, htokens, List.length_append, Nat.zero_add]
    rfl
  have hafter : r.load = r.events.length + 11 := by
    rw [Recorder.load, hstop]
    rfl
  have hrun : Recording.sourceFile limit s = .ok ((), r) := by
    rw [recordCounting] at hrecord
    cases hfile : Recording.sourceFile limit s with
    | error fault =>
      rw [hfile] at hrecord
      cases hrecord
    | ok last =>
      rw [hfile] at hrecord
      cases hrecord
      rfl
  -- the end of the text is ahead all the time and pays for nothing
  have hload := Recording.adds_sourceFile limit _ r () hrun
  have hlength := Token.length_significant_le source
  omega

end Abnf
