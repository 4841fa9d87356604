/-
Documents do not interfere.

What a server answers about a document depends on what it was told about that document and on nothing else.
Two servers agree on a document if they know the same text of it, or if both do not run any more
(`Phase.AgreeOn`).  They still agree after the same message (`Phase.AgreeOn.step`), and also after a notice
about other documents that only one of them was given (`Phase.AgreeOn.step_foreign`); and servers that agree
on a document answer alike what is asked about it.  So the notices about other documents can be left out of
the messages of a client without a change to the answers (`documents_do_not_interfere`).
-/
import Abnf.Proofs.OpenDocuments

namespace Abnf

open Params

namespace Message

/-- The notifications that tell about documents. -/
def noticeMethods : List String :=
  ["textDocument/didOpen", "textDocument/didChange", "textDocument/didClose"]

/-- Whether a message is a notification that tells about documents, and not about the given one. -/
def isForeign (uri : String) : Message → Bool
  | notification method params =>
    noticeMethods.contains method && (documentNotice? method params).all (·.uri != uri)
  | _ => false

/-- Whether a message is a request about a document, or one that asks about no document at all: its method
is not known or its params cannot be decoded. -/
def concerns (uri : String) : Message → Bool
  | request _ method params => (query? method params).join.all (·.uri == uri)
  | _ => false

variable {uri : String} {m : Message}

theorem exists_of_isForeign (h : m.isForeign uri = true) :
    ∃ method params, m = .notification method params ∧ method ≠ "exit" := by
  cases m with
  | notification method params =>
    refine ⟨method, params, rfl, ?_⟩
    rintro rfl
    rw [isForeign, Bool.and_eq_true_iff] at h
    exact absurd h.1 (by decide)
  | _ => cases h

/-- A message about other documents does not change the text of a document. -/
theorem textAfter_of_isForeign (h : m.isForeign uri = true) (config : Config) (text? : Option String) :
    m.textAfter config uri text? = text? := by
  obtain ⟨method, params, rfl, -⟩ := exists_of_isForeign h
  have hother := (Bool.and_eq_true_iff.mp h).2
  rw [textAfter, notice?]
  cases hnotice : documentNotice? method params with
  | none => rfl
  | some notice =>
    rw [hnotice, Option.all_some, bne_iff_ne] at hother
    exact if_neg hother

end Message

/-! ### Questions about a document -/

namespace Session

/-- An answer about a document is found in its index alone. -/
theorem answer_congr {session other : Session} {query : Query}
    (h : session.store.get? query.uri = other.store.get? query.uri) :
    session.answer query = other.answer query := by
  have hlocate : ∀ place : Place, session.store.get? place.uri = other.store.get? place.uri →
      session.locate? place = other.locate? place := by
    intro place hplace
    rw [locate?, locate?, hplace]
  cases query with
  | hover place => rw [answer, answer, hover, hover, hlocate place h]
  | definition place => rw [answer, answer, gotoDefinition, gotoDefinition, hlocate place h]
  | references place includeDefinitions =>
    rw [answer, answer, findReferences, findReferences, hlocate place h]
  | symbols uri =>
    have hget : session.store.get? uri = other.store.get? uri := h
    rw [answer, answer, symbols, symbols, hget]
  | prepareRename place => rw [answer, answer, prepareRename, prepareRename, hlocate place h]
  | rename place newName => rw [answer, answer, rename, rename, hlocate place h]
  | completion uri =>
    have hget : session.store.get? uri = other.store.get? uri := h
    rw [answer, answer, completions, completions, hget]

/-- Whether two sessions know the same text of a document, or both know none. -/
def AgreeOn (config : Config) (uri : String) (session other : Session) : Prop :=
  ∃ texts texts', Holds config texts session ∧ Holds config texts' other ∧ texts uri = texts' uri

namespace AgreeOn

variable {config : Config} {uri : String} {session other : Session}
  (h : AgreeOn config uri session other)
include h

theorem told (m : Message) : AgreeOn config uri (session.told m) (other.told m) := by
  obtain ⟨texts, texts', hsession, hother, hsame⟩ := h
  exact ⟨_, _, hsession.told m, hother.told m, congrArg (m.textAfter config uri) hsame⟩

theorem told_foreign {m : Message} (hm : m.isForeign uri = true) :
    AgreeOn config uri (session.told m) other := by
  obtain ⟨texts, texts', hsession, hother, hsame⟩ := h
  refine ⟨_, _, hsession.told m, hother, ?_⟩
  show m.textAfter config uri (texts uri) = texts' uri
  rw [Message.textAfter_of_isForeign hm, hsame]

theorem request {id : RequestId} {method : String} {params : Json}
    (hm : (Message.request id method params).concerns uri = true) :
    session.request id method params = other.request id method params := by
  obtain ⟨texts, texts', hsession, hother, hsame⟩ := h
  have hlogs : session.logs = other.logs := by
    funext records
    rw [logs, logs, hsession.config, hother.config]
  rw [Message.concerns] at hm
  rw [Session.request, Session.request, hlogs]
  cases hquery : query? method params with
  | none => rfl
  | some query? =>
    cases query? with
    | none => rfl
    | some query =>
      have huri : query.uri = uri := by
        rw [hquery] at hm
        exact beq_iff_eq.mp hm
      have hanswer : session.answer query = other.answer query := by
        refine answer_congr ?_
        rw [huri, hsession.entry, hother.entry, hsame]
      simp only [hanswer]

end AgreeOn

end Session

/-! ### Runs -/

namespace Phase

/-- Whether a server has been shut down or has ended. -/
def isStopped : Phase → Bool
  | shuttingDown _ | ended _ => true
  | _ => false

/-- A server that is shut down does not run again and answers no request. -/
theorem isStopped_step {phase : Phase} (h : phase.isStopped = true) (m : Message) :
    (phase.step m).1.isStopped = true ∧ ∀ uri, m.concerns uri = true → (phase.step m).2 = [] := by
  cases phase with
  | shuttingDown session =>
    rw [step]
    fun_cases stepShuttingDown session m with
    | case1 => exact ⟨rfl, fun uri hm => by cases hm⟩
    | case2 =>
      -- a notice breaks the protocol here just as a question does
      exact ⟨rfl, fun uri hm => rfl⟩
  | ended ending => exact ⟨rfl, fun uri hm => rfl⟩
  | _ => cases h

/-- Whether two servers agree on a document: both run and agree on it, or neither runs any more. -/
inductive AgreeOn (config : Config) (uri : String) : Phase → Phase → Prop
  | running {session other : Session} (h : session.AgreeOn config uri other) :
    AgreeOn config uri (running session) (running other)
  | stopped {phase other : Phase} (h : phase.isStopped = true) (h' : other.isStopped = true) :
    AgreeOn config uri phase other

namespace AgreeOn

variable {config : Config} {uri : String} {phase other : Phase}

/-- The same message to both servers: they still agree, and they give out the same for a request about the
document. -/
theorem step (h : AgreeOn config uri phase other) (m : Message) :
    AgreeOn config uri (phase.step m).1 (other.step m).1 ∧
      (m.concerns uri = true → (phase.step m).2 = (other.step m).2) := by
  cases h with
  | @running session other h =>
    cases m with
    | request id method params =>
      by_cases hmethod : method = "shutdown"
      · subst hmethod
        exact ⟨.stopped rfl rfl, fun _ => rfl⟩
      · rw [step_request session id params hmethod, step_request other id params hmethod]
        exact ⟨.running h, h.request⟩
    | response id => exact ⟨.running h, fun _ => rfl⟩
    | notification method params =>
      refine ⟨?_, fun hm => by cases hm⟩
      by_cases hmethod : method = "exit"
      · subst hmethod
        exact .stopped rfl rfl
      · rw [step_notification session params hmethod, step_notification other params hmethod]
        exact .running (h.told _)
  | stopped h h' =>
    obtain ⟨hnext, hnone⟩ := isStopped_step h m
    obtain ⟨hnext', hnone'⟩ := isStopped_step h' m
    exact ⟨.stopped hnext hnext', fun hm => by rw [hnone uri hm, hnone' uri hm]⟩

/-- A message about other documents to one of the servers. -/
theorem step_foreign (h : AgreeOn config uri phase other) {m : Message} (hm : m.isForeign uri = true) :
    AgreeOn config uri (phase.step m).1 other := by
  cases h with
  | @running session other h =>
    obtain ⟨method, params, rfl, hmethod⟩ := Message.exists_of_isForeign hm
    rw [step_notification session params hmethod]
    exact .running (h.told_foreign hm)
  | stopped h h' => exact .stopped (isStopped_step h m).1 h'

end AgreeOn

/-- The messages of a run, each with what is given out for it. -/
def exchanges (phase : Phase) : List Message → List (Message × List Output)
  | [] => []
  | m :: ms => (m, (phase.step m).2) :: (phase.step m).1.exchanges ms

theorem flatMap_exchanges (phase : Phase) (messages : List Message) :
    (phase.exchanges messages).flatMap (·.2) = (phase.run messages).1 := by
  induction messages generalizing phase with
  | nil => rfl
  | cons m messages ih =>
    show (phase.step m).2 ++ ((phase.step m).1.exchanges messages).flatMap (·.2) = _
    rw [ih]
    rfl

/-- Messages about other documents may be left out for one of two servers that agree on a document. -/
theorem AgreeOn.exchanges {config : Config} {uri : String} {phase other : Phase}
    (h : AgreeOn config uri phase other) (drop : Message → Bool) (messages : List Message) :
    (other.exchanges (messages.filter fun m => !(drop m && m.isForeign uri))).filter (·.1.concerns uri) =
      (phase.exchanges messages).filter (·.1.concerns uri) := by
  induction messages generalizing phase other with
  | nil => rfl
  | cons m messages ih =>
    rw [Phase.exchanges]
    cases hdrop : drop m && m.isForeign uri with
    | true =>
      -- only the first server is given the message
      have hforeign : m.isForeign uri = true := (Bool.and_eq_true_iff.mp hdrop).2
      have hm : m.concerns uri = false := by
        obtain ⟨method, params, rfl, -⟩ := Message.exists_of_isForeign hforeign
        rfl
      rw [List.filter_cons_of_neg (by rw [hdrop]; decide), ih (h.step_foreign hforeign),
        List.filter_cons_of_neg (by rw [hm]; decide)]
    | false =>
      obtain ⟨hnext, hsame⟩ := h.step m
      rw [List.filter_cons_of_pos (by rw [hdrop]; rfl), Phase.exchanges, List.filter_cons,
        List.filter_cons, ih hnext]
      split
      · rename_i hm
        rw [hsame hm]
      · rfl

end Phase

/-- Documents do not interfere.  Take any messages to a server that has just started.  From them, any
notifications about documents may be left out that do not tell about a given document.  The requests that
are not about other documents, and what is given out for each of them, stay the same, in the same order. -/
theorem documents_do_not_interfere (config : Config) (uri : String) (messages : List Message)
    (drop : Message → Bool) :
    let start : Phase := .running (.fresh config)
    let kept := messages.filter fun m => !(drop m && m.isForeign uri)
    (start.exchanges kept).filter (·.1.concerns uri) = (start.exchanges messages).filter (·.1.concerns uri) ∧
      ∀ ms, (start.exchanges ms).flatMap (·.2) = (start.run ms).1 := by
  intro start kept
  refine ⟨?_, fun ms => start.flatMap_exchanges ms⟩
  have hfresh := Session.Holds.fresh config
  exact (Phase.AgreeOn.running ⟨_, _, hfresh, hfresh, rfl⟩).exchanges drop messages

end Abnf
