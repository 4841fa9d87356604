/-
The documents that a server knows.

A running server keeps two tables: the documents that are open, and the indexes of documents.  Both
follow what the client has told, document by document, and nothing else: a document is open from where
it was opened in an accepted language up to where it is closed, and its index is that of the text that
was told last (`documents_follow_messages`).

* `Phase.stepRunning_cases` says what a message can do to a running server;
* `Session.Holds` ties a session to the texts of its documents, `Session.Holds.told` is one message and
  `Session.Holds.foldl` a run of them;
* `Message.LastOpened` looks at the messages alone, and `foldl_textAfter` says that the texts are what
  the messages after the last opening tell.
-/
import Abnf.Server.Run

namespace Abnf

open Params

namespace Message

/-- What a message tells about a document, if it can be decoded. -/
def notice? : Message → Option DocumentNotice
  | notification method params => documentNotice? method params
  | _ => none

/-- Whether a message opens a document with a text, in a language that is accepted. -/
def Opens (config : Config) (uri text : String) (m : Message) : Prop :=
  ∃ languageId, m.notice? = some (.opened uri languageId text) ∧ config.accepts languageId = true

/-- Whether a message closes a document. -/
def Closes (uri : String) (m : Message) : Prop := m.notice? = some (.closed uri)

/-- The text that a change of a document gives to it: that of the last change of the whole text. -/
def newText? (uri : String) (m : Message) : Option String :=
  match m.notice? with
  | some (.changed changedUri _ changes) =>
    if changedUri = uri then (changes.filter (·.range.isNone)).getLast?.map (·.text) else none
  | _ => none

/-- Whether a document was last opened with a text, and some messages came later. -/
def LastOpened (config : Config) (uri : String) (messages : List Message) (text : String)
    (later : List Message) : Prop :=
  ∃ before m, messages = before ++ m :: later ∧ m.Opens config uri text ∧
    ∀ m' ∈ later, ¬∃ text', m'.Opens config uri text'

end Message

/-! ### Messages to a running server -/

namespace Session

/-- A session after a message. -/
def told (session : Session) (m : Message) : Session :=
  match m.notice? with
  | some notice => (session.hear notice).1
  | none => session

theorem notify_fst (session : Session) (method : String) (params : Json) :
    (session.notify method params).1 = session.told (.notification method params) := by
  rw [notify, told, Message.notice?]
  cases documentNotice? method params <;> rfl

end Session

namespace Phase

/-- Where a server is after some messages. -/
def after (phase : Phase) (messages : List Message) : Phase :=
  messages.foldl (fun phase m => (phase.step m).1) phase

/-- What is given out for more messages is given out from where the server is then. -/
theorem run_append (phase : Phase) (messages more : List Message) :
    (phase.run (messages ++ more)).1 =
      (phase.run messages).1 ++ ((phase.after messages).run more).1 := by
  induction messages generalizing phase with
  | nil => rfl
  | cons m messages ih =>
    show (phase.step m).2 ++ ((phase.step m).1.run (messages ++ more)).1 = _
    rw [ih, ← List.append_assoc]
    rfl

/-- A message to a running server is taken note of, or shuts it down, or ends it. -/
theorem stepRunning_cases (session : Session) (m : Message) :
    (stepRunning session m).1 = running (session.told m) ∨
      (stepRunning session m).1 = shuttingDown session ∨
      (stepRunning session m).1 = ended .done := by
  fun_cases stepRunning session m with
  | case1 => exact Or.inr (Or.inl rfl)
  | case2 => exact Or.inl rfl
  | case3 => exact Or.inl rfl
  | case4 => exact Or.inr (Or.inr rfl)
  | case5 method params hexit next outputs hnotify =>
    refine Or.inl (congrArg running ?_)
    rw [← session.notify_fst, hnotify]

/-- A request other than `shutdown` leaves a running server as it is. -/
theorem step_request (session : Session) (id : RequestId) {method : String} (params : Json)
    (hmethod : method ≠ "shutdown") :
    (running session).step (.request id method params) =
      (running session, session.request id method params) := by
  simp [step, stepRunning]

/-- A notification other than `exit` is taken note of. -/
theorem step_notification (session : Session) {method : String} (params : Json)
    (hmethod : method ≠ "exit") :
    (running session).step (.notification method params) =
      (running (session.told (.notification method params)), (session.notify method params).2) := by
  rw [← session.notify_fst]
  simp [step, stepRunning]

theorem after_ended (ending : Ending) (messages : List Message) :
    (ended ending).after messages = ended ending := by
  induction messages with
  | nil => rfl
  | cons m messages ih => exact ih

/-- After the request to shut down, a server does not run again. -/
theorem after_shuttingDown (session next : Session) (messages : List Message) :
    (shuttingDown session).after messages ≠ running next := by
  cases messages with
  | nil => exact fun h => by cases h
  | cons m messages =>
    have hended : ∃ ending, (stepShuttingDown session m).1 = ended ending := by
      fun_cases stepShuttingDown session m <;> exact ⟨_, rfl⟩
    obtain ⟨ending, hended⟩ := hended
    show Phase.after (stepShuttingDown session m).1 messages ≠ running next
    rw [hended, after_ended]
    exact fun h => by cases h

/-- A server that still runs has taken note of all messages, one after the other. -/
theorem told_of_after {session next : Session} {messages : List Message}
    (h : (running session).after messages = running next) :
    next = messages.foldl Session.told session := by
  induction messages generalizing session with
  | nil => exact (Phase.running.inj h).symm
  | cons m messages ih =>
    have hstep : (stepRunning session m).1.after messages = running next := h
    rcases stepRunning_cases session m with hm | hm | hm
    · rw [hm] at hstep
      exact ih hstep
    · rw [hm] at hstep
      exact absurd hstep (after_shuttingDown session next messages)
    · rw [hm, after_ended] at hstep
      cases hstep

end Phase

/-! ### The texts of documents -/

/-- The text of a document after a notice about it, from the text before; none while it is not
open. -/
def Params.DocumentNotice.textAfter (config : Config) (text? : Option String) :
    DocumentNotice → Option String
  | .opened _ languageId text => if config.accepts languageId then some text else text?
  | .changed _ _ changes => text?.map (Session.lastFullText? changes).getD
  | .closed _ => none

/-- The text of a document after a message. -/
def Message.textAfter (config : Config) (uri : String) (text? : Option String) (m : Message) :
    Option String :=
  match m.notice? with
  | some notice => if notice.uri = uri then notice.textAfter config text? else text?
  | none => text?

namespace Session

/-- Whether a session knows the documents that have a text, with the indexes of their texts. -/
structure Holds (config : Config) (texts : String → Option String) (session : Session) : Prop where
  config : session.config = config
  isOpen : ∀ uri, session.openDocuments.contains uri = (texts uri).isSome
  entry : ∀ uri, session.store.get? uri =
    (texts uri).map fun text => Index.ofTree uri (parse defaultNestingLimit text.toList)

namespace Holds

variable {config : Config} {texts : String → Option String} {session : Session}

theorem fresh (config : Config) : Holds config (fun _ => none) (Session.fresh config) :=
  ⟨rfl, fun _ => rfl, fun _ => rfl⟩

theorem congr {texts' : String → Option String} (h : Holds config texts session)
    (hsame : ∀ uri, texts' uri = texts uri) : Holds config texts' session := by
  rwa [funext hsame]

/-- A document that is open, or has just been opened, is given another text. -/
theorem indexText (h : Holds config texts session) (next : Session) (uri text : String)
    (hconfig : next.config = session.config) (hstore : next.store = session.store)
    (hopen : ∀ other, next.openDocuments.contains other =
      (if uri = other then some text else texts other).isSome) :
    Holds config (fun other => if uri = other then some text else texts other)
      (next.indexText uri text).1 where
  config := hconfig.trans h.config
  isOpen := hopen
  entry := by
    intro other
    show (next.store.entries.insert uri _).get? other = _
    rw [Table.get?_insert, hstore]
    split
    · rename_i heq
      rw [heq]
      rfl
    · exact h.entry other

theorem openDocument (h : Holds config texts session) (uri languageId text : String) :
    Holds config
      (fun other => if uri = other then
        (if config.accepts languageId then some text else texts other) else texts other)
      (session.openDocument uri languageId text).1 := by
  have haccepts : session.config.accepts languageId = config.accepts languageId := by rw [h.config]
  rw [Session.openDocument, haccepts]
  split
  · refine h.indexText ⟨session.config, session.openDocuments.insert uri (), session.store⟩ uri text
      rfl rfl fun other => ?_
    have hopen := h.isOpen other
    rw [Table.contains] at hopen ⊢
    rw [Table.get?_insert]
    split
    · rfl
    · exact hopen
  · exact h.congr fun other => ite_self _

theorem changeDocument (h : Holds config texts session) (uri : String) (version : Int)
    (changes : List ContentChange) :
    Holds config
      (fun other => if uri = other then (texts other).map (lastFullText? changes).getD
        else texts other)
      (session.changeDocument uri version changes).1 := by
  have hopen := h.isOpen uri
  rw [Session.changeDocument, hopen]
  cases htext : texts uri with
  | none =>
    refine h.congr fun other => ?_
    split
    · rename_i heq
      rw [← heq, htext]
      rfl
    · rfl
  | some old =>
    have hchanged : ∀ text : String, (∀ other,
        (if uri = other then (texts other).map fun _ => text else texts other) =
          if uri = other then some text else texts other) := by
      intro text other
      split
      · rename_i heq
        rw [← heq, htext]
        rfl
      · rfl
    cases hfull : lastFullText? changes with
    | none =>
      -- a change of parts only
      refine h.congr fun other => ?_
      split
      · cases texts other <;> rfl
      · rfl
    | some text =>
      refine (h.indexText session uri text rfl rfl fun other => ?_).congr (hchanged text)
      rw [h.isOpen other]
      split
      · rename_i heq
        rw [← heq, htext]
        rfl
      · rfl

theorem closeDocument (h : Holds config texts session) (uri : String) :
    Holds config (fun other => if uri = other then none else texts other)
      (session.closeDocument uri).1 where
  config := h.config
  isOpen := by
    intro other
    have hopen := h.isOpen other
    show (session.openDocuments.erase uri).contains other = _
    rw [Table.contains] at hopen ⊢
    rw [Table.get?_erase]
    split
    · rfl
    · exact hopen
  entry := by
    intro other
    show (session.store.entries.erase uri).get? other = _
    rw [Table.get?_erase]
    split
    · rfl
    · exact h.entry other

/-- One message. -/
theorem told (h : Holds config texts session) (m : Message) :
    Holds config (fun uri => m.textAfter config uri (texts uri)) (session.told m) := by
  rw [Session.told]
  unfold Message.textAfter
  split
  · rename_i notice _
    cases notice with
    | opened uri languageId text => exact h.openDocument uri languageId text
    | changed uri version changes => exact h.changeDocument uri version changes
    | closed uri => exact h.closeDocument uri
  · exact h

/-- A run of messages. -/
theorem foldl (h : Holds config texts session) (messages : List Message) :
    Holds config (fun uri => messages.foldl (Message.textAfter config uri) (texts uri))
      (messages.foldl Session.told session) := by
  induction messages generalizing texts session with
  | nil => exact h
  | cons m messages ih => exact ih (h.told m)

end Holds

end Session

/-! ### What the messages say -/

theorem Session.lastFullText?_eq (changes : List ContentChange) :
    lastFullText? changes = (changes.filter (·.range.isNone)).getLast?.map (·.text) := by
  rw [lastFullText?, List.getLast?_eq_head?_reverse, ← List.filter_reverse, List.head?_filter]

namespace Message

variable {config : Config} {uri : String} {m : Message}

theorem textAfter_of_opens {text : String} (h : m.Opens config uri text) (text? : Option String) :
    m.textAfter config uri text? = some text := by
  obtain ⟨languageId, hnotice, haccepts⟩ := h
  simp only [textAfter, hnotice, DocumentNotice.uri, DocumentNotice.textAfter, haccepts, if_true]

theorem textAfter_of_closes (h : m.Closes uri) (text? : Option String) :
    m.textAfter config uri text? = none := by
  rw [Closes] at h
  simp only [textAfter, h, DocumentNotice.uri, DocumentNotice.textAfter, if_true]

/-- A message that neither opens nor closes a document may change its text if it is open. -/
theorem textAfter_of_not (hopens : ¬∃ text, m.Opens config uri text) (hcloses : ¬m.Closes uri)
    (text? : Option String) :
    m.textAfter config uri text? = text?.map (m.newText? uri).getD := by
  unfold textAfter newText?
  cases hnotice : m.notice? with
  | none => cases text? <;> rfl
  | some notice =>
    cases notice with
    | opened openedUri languageId text =>
      have hnot : openedUri = uri → ¬config.accepts languageId = true := by
        rintro rfl haccepts
        exact hopens ⟨text, languageId, hnotice, haccepts⟩
      by_cases huri : openedUri = uri
      · have hsame : (if config.accepts languageId then some text else text?) = text? :=
          if_neg (hnot huri)
        simp only [DocumentNotice.uri, DocumentNotice.textAfter, huri, if_true, hsame]
        cases text? <;> rfl
      · simp only [DocumentNotice.uri, huri, if_false]
        cases text? <;> rfl
    | changed changedUri version changes =>
      by_cases huri : changedUri = uri
      · simp only [DocumentNotice.uri, DocumentNotice.textAfter, huri, if_true,
          Session.lastFullText?_eq]
      · simp only [DocumentNotice.uri, huri, if_false]
        cases text? <;> rfl
    | closed closedUri =>
      have huri : closedUri ≠ uri := by
        rintro rfl
        exact hcloses hnotice
      simp only [DocumentNotice.uri, huri, if_false]
      cases text? <;> rfl

/-- The text of an open document is the one that was told last. -/
theorem foldl_textAfter {later : List Message}
    (hopens : ∀ m ∈ later, ¬∃ text, m.Opens config uri text) (hcloses : ∀ m ∈ later, ¬m.Closes uri)
    (text : String) :
    later.foldl (textAfter config uri) (some text) =
      some ((later.filterMap (newText? uri)).getLast?.getD text) := by
  induction later generalizing text with
  | nil => rfl
  | cons m later ih =>
    have hm := textAfter_of_not (hopens m List.mem_cons_self) (hcloses m List.mem_cons_self)
      (some text)
    rw [List.foldl_cons, hm, Option.map_some,
      ih (fun m hm => hopens m (List.mem_cons_of_mem _ hm))
        (fun m hm => hcloses m (List.mem_cons_of_mem _ hm)), List.filterMap_cons]
    cases m.newText? uri with
    | none => rfl
    | some new =>
      rw [List.getLast?_cons]
      rfl

theorem foldl_of_lastOpened {messages later : List Message} {text : String}
    (h : LastOpened config uri messages text later) (hcloses : ∀ m ∈ later, ¬m.Closes uri) :
    messages.foldl (textAfter config uri) none =
      some ((later.filterMap (newText? uri)).getLast?.getD text) := by
  obtain ⟨before, m, rfl, hm, hopens⟩ := h
  rw [List.foldl_append, List.foldl_cons, textAfter_of_opens hm, foldl_textAfter hopens hcloses]

/-- A document that has a text after some messages had one before them, or they open it; it is not
closed after that. -/
theorem exists_lastOpened {messages : List Message} {text? : Option String}
    (h : (messages.foldl (textAfter config uri) text?).isSome = true) :
    (∃ text later, LastOpened config uri messages text later ∧ ∀ m ∈ later, ¬m.Closes uri) ∨
      text?.isSome = true ∧
        ∀ m ∈ messages, (¬∃ text, m.Opens config uri text) ∧ ¬m.Closes uri := by
  induction messages generalizing text? with
  | nil => exact Or.inr ⟨h, by simp⟩
  | cons m messages ih =>
    rcases ih h with ⟨text, later, ⟨before, opener, rfl, hopener, hlater⟩, hcloses⟩ | ⟨hsome, hmore⟩
    · exact Or.inl ⟨text, later, ⟨m :: before, opener, rfl, hopener, hlater⟩, hcloses⟩
    · by_cases hopens : ∃ text, m.Opens config uri text
      · obtain ⟨text, hm⟩ := hopens
        exact Or.inl ⟨text, messages, ⟨[], m, rfl, hm, fun m hm => (hmore m hm).1⟩,
          fun m hm => (hmore m hm).2⟩
      · by_cases hcloses : m.Closes uri
        · rw [textAfter_of_closes hcloses] at hsome
          exact absurd hsome (by decide)
        · -- the message leaves it open or not as it was
          rw [textAfter_of_not hopens hcloses, Option.isSome_map] at hsome
          refine Or.inr ⟨hsome, fun m' hm' => ?_⟩
          rcases List.mem_cons.mp hm' with rfl | hm'
          · exact ⟨hopens, hcloses⟩
          · exact hmore m' hm'

end Message

/-! ### Questions -/

namespace Session

/-- There is nothing to tell about a document without an index. -/
theorem answer_of_get?_eq_none {session : Session} {query : Query}
    (h : session.store.get? query.uri = none) : (session.answer query).1 = .nothing := by
  have hlocate : ∀ place : Place, session.store.get? place.uri = none →
      session.locate? place = none := by
    intro place hplace
    rw [locate?, hplace]
    rfl
  cases query with
  | hover place => simp [answer, hover, hlocate place h]
  | definition place => simp [answer, gotoDefinition, hlocate place h]
  | references place includeDefinitions => simp [answer, findReferences, hlocate place h]
  | symbols uri =>
    have hget : session.store.get? uri = none := h
    simp [answer, symbols, hget]
  | prepareRename place => simp [answer, prepareRename, hlocate place h]
  | rename place newName => simp [answer, rename, hlocate place h]
  | completion uri =>
    have hget : session.store.get? uri = none := h
    simp [answer, completions, hget]

end Session

/-- Whether an output is a log record. -/
def Output.isLog : Output → Bool
  | log _ _ => true
  | _ => false

namespace Session

theorem filter_logs (session : Session) (records : List LogRecord) :
    (session.logs records).filter (!·.isLog) = [] := by
  rw [List.filter_eq_nil_iff]
  intro output houtput
  obtain ⟨record, -, rfl⟩ := List.mem_map.mp houtput
  simp [Output.isLog]

/-- A question that can be decoded is answered once, with what the session has to tell. -/
theorem filter_stepRunning {session : Session} {id : RequestId} {method : String} {params : Json}
    {query : Query} (hquery : query? method params = some (some query)) :
    (Phase.stepRunning session (.request id method params)).2.filter (!·.isLog) =
      [.result id (session.answer query).1.toJson] := by
  have hmethod : method ≠ "shutdown" := by
    rintro rfl
    have hnone : query? "shutdown" params = none := rfl
    rw [hnone] at hquery
    exact absurd hquery (by simp)
  have hstep : (Phase.stepRunning session (.request id method params)).2 =
      session.request id method params :=
    congrArg Prod.snd (Phase.step_request session id params hmethod)
  rw [hstep, request, hquery]
  simp only [List.filter_append, filter_logs, List.nil_append]
  rfl

end Session

/-- The documents of a server are what its client has told.  Take any messages after which a new server
still runs.  The documents with an index are those that are open.  A document is open iff it is not
closed after it was last opened in an accepted language.  Its index is then that of the text it was
opened with or, if it was changed as a whole since, of the last such text.  A message that is no notice
that can be decoded changes nothing, and one about another document changes nothing about this one.
A question about a document that is not open is answered with null. -/
theorem documents_follow_messages (config : Config) (messages : List Message) (session : Session)
    (hrunning : (Phase.running (.fresh config)).after messages = .running session) :
    (∀ uri, (session.store.get? uri).isSome = session.openDocuments.contains uri) ∧
      (∀ uri, session.openDocuments.contains uri = true ↔
        ∃ text later, Message.LastOpened config uri messages text later ∧
          ∀ m ∈ later, ¬m.Closes uri) ∧
      (∀ uri text later, Message.LastOpened config uri messages text later →
        (∀ m ∈ later, ¬m.Closes uri) →
          session.store.get? uri = some (Index.ofTree uri (parse defaultNestingLimit
            ((later.filterMap (Message.newText? uri)).getLast?.getD text).toList))) ∧
      (∀ m next, ((Phase.running session).step m).1 = .running next →
        (m.notice? = none → next = session) ∧
          ∀ uri, (∀ notice, m.notice? = some notice → notice.uri ≠ uri) →
            next.openDocuments.contains uri = session.openDocuments.contains uri ∧
              next.store.get? uri = session.store.get? uri) ∧
      ∀ id method params query, query? method params = some (some query) →
        session.openDocuments.contains query.uri = false →
          ((Phase.running (.fresh config)).run (messages ++ [.request id method params])).1.filter
              (!·.isLog) =
            ((Phase.running (.fresh config)).run messages).1.filter (!·.isLog) ++
              [.result id .null] := by
  have hholds := (Session.Holds.fresh config).foldl messages
  rw [← Phase.told_of_after hrunning] at hholds
  refine ⟨?_, ?_, ?_, ?_, ?_⟩
  · intro uri
    rw [hholds.entry, hholds.isOpen, Option.isSome_map]
  · intro uri
    rw [hholds.isOpen]
    constructor
    · intro hopen
      rcases Message.exists_lastOpened hopen with hlast | ⟨hnone, -⟩
      · exact hlast
      · exact absurd hnone (by decide)
    · rintro ⟨text, later, hlast, hcloses⟩
      rw [Message.foldl_of_lastOpened hlast hcloses]
      rfl
  · intro uri text later hlast hcloses
    rw [hholds.entry, Message.foldl_of_lastOpened hlast hcloses]
    rfl
  · intro m next hstep
    have hone : (Phase.running session).after [m] = .running next := hstep
    have hnext : next = session.told m := Phase.told_of_after hone
    have hafter := hholds.told m
    rw [← hnext] at hafter
    refine ⟨fun hnone => ?_, fun uri hother => ?_⟩
    · rw [hnext, Session.told, hnone]
    · have hsame : ∀ text?, m.textAfter config uri text? = text? := by
        intro text?
        rw [Message.textAfter]
        split
        · exact if_neg (hother _ ‹_›)
        · rfl
      rw [hafter.isOpen, hafter.entry, hholds.isOpen, hholds.entry]
      simp only [hsame, and_self]
  · intro id method params query hquery hclosed
    have hnone : session.store.get? query.uri = none := by
      rw [hholds.isOpen, Option.isSome_eq_false_iff, Option.isNone_iff_eq_none] at hclosed
      rw [hholds.entry, hclosed]
      rfl
    rw [Phase.run_append, hrunning, List.filter_append]
    show _ ++ ((Phase.stepRunning session _).2 ++ []).filter _ = _
    rw [List.append_nil, Session.filter_stepRunning hquery, Session.answer_of_get?_eq_none hnone]
    rfl

/-- A document is opened, opened again in a language that is not accepted, and changed as a whole and
then in a part, while another one is closed. -/
theorem documents_follow_messages_reopened :
    let start : Json := .arr [.int 0, .int 0]
    let messages : List Message :=
      [.notification "textDocument/didOpen"
          (.arr [.arr [.str "file:///a", .str "abnf", .int 1, .str "a = b"]]),
        .notification "textDocument/didOpen"
          (.arr [.arr [.str "file:///a", .str "text", .int 1, .str "c = d"]]),
        .notification "textDocument/didChange"
          (.arr [.arr [.str "file:///a", .int 2], .arr [.arr [.null, .null, .str "b = a"],
            .arr [.arr [start, start], .null, .str "c"]]]),
        .notification "textDocument/didClose" (.arr [.arr [.str "file:///b"]])]
    ∃ session, (Phase.running (.fresh {})).after messages = .running session ∧
      session.store.get? "file:///a" =
        some (Index.ofTree "file:///a" (parse defaultNestingLimit "b = a".toList)) := by
  intro start messages
  have hrunning : (Phase.running (.fresh {})).after messages = .running _ := rfl
  refine ⟨_, hrunning, ?_⟩
  have hnotices : messages.tail.map Message.notice? =
      [some (.opened "file:///a" "text" "c = d"),
        some (.changed "file:///a" 2 [⟨none, "b = a"⟩, ⟨some ⟨⟨0, 0⟩, ⟨0, 0⟩⟩, "c"⟩]),
        some (.closed "file:///b")] := rfl
  have hmem : ∀ m ∈ messages.tail, m.notice? ∈ _ := fun m hm => hnotices ▸ List.mem_map_of_mem hm
  have hlast : Message.LastOpened {} "file:///a" messages "a = b" messages.tail := by
    refine ⟨[], messages.head (by simp [messages]), rfl, ⟨"abnf", rfl, rfl⟩, ?_⟩
    rintro m hm ⟨text, languageId, hnotice, haccepts⟩
    have hopened := hmem m hm
    rw [hnotice] at hopened
    have hlanguage : languageId = "text" := by
      simp only [List.mem_cons, Option.some.injEq, DocumentNotice.opened.injEq, reduceCtorEq,
        List.not_mem_nil, or_false] at hopened
      exact hopened.2.1
    rw [hlanguage] at haccepts
    exact absurd haccepts (by decide)
  have hcloses : ∀ m ∈ messages.tail, ¬m.Closes "file:///a" := by
    intro m hm hclosed
    have hnotice := hmem m hm
    rw [hclosed] at hnotice
    simp at hnotice
  exact (documents_follow_messages {} messages _ hrunning).2.2.1 _ _ _ hlast hcloses

end Abnf
