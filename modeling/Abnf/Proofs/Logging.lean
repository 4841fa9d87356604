/-
Logging and the protocol.

Log records go out through the channel that also carries the answers, before and after each of them.  They
have no effect on the answers: two servers whose clients differ only in the flag for log records stay in
lockstep, and but for log messages they send the same and end the same (`logging_keeps_protocol`).

* `Config.AlikeButLog`, `Params.AlikeButLog` and `Message.AlikeButLog` say what a client may change;
* `Session.withLog` sets the flag of a session, and `Session.hear_withLog` says that it stays out of the way
  of the documents;
* `Phase.Matches.step` is one message of the two runs, and `Phase.Matches.run` the whole of them;
* `Phase.Quiet.step` and `Phase.Quiet.run` do the same for one run in which the flag is off.

This is about the records that the server makes itself.  The level of the log is a filter on the outputs of a
whole run, and a send neither waits nor fails, so a record can hold nothing up.  A transport that logs through
the same channel would add messages of its own.
-/
import Abnf.Proofs.Isolation
import Abnf.Proofs.Responses

namespace Abnf

open Params

/-! ### What the clients may change -/

/-- Whether two values are objects with the same fields, but for the fields of one name. -/
inductive Json.AgreeBut (name : String) : Json → Json → Prop
  | intro (fields fields' : List (String × Json))
      (h : ∀ other, other ≠ name → (obj fields).get? other = (obj fields').get? other) :
      AgreeBut name (obj fields) (obj fields')

theorem Json.AgreeBut.get? {name other : String} {value value' : Json}
    (h : AgreeBut name value value') (hother : other ≠ name) : value.get? other = value'.get? other := by
  cases h with
  | intro fields fields' hfields => exact hfields other hother

/-- An object is admitted for the fields that are looked at. -/
theorem Shape.object_congr {name : String} {value value' : Json} (h : Json.AgreeBut name value value')
    {fields : List Field} (hfields : ∀ field ∈ fields, field.name ≠ name) :
    Shape.object fields value = Shape.object fields value' := by
  cases h with
  | intro entries entries' hentries =>
    rw [object, object, Bool.eq_iff_iff, List.all_eq_true, List.all_eq_true]
    refine forall₂_congr fun field hfield => ?_
    rw [hentries field.name (hfields field hfield)]

namespace Config

/-- Whether a flag is a boolean, if it is there.  Any other value would make the options malformed, and
so change the languages as well. -/
def IsFlag (flag : Option Json) : Prop := ∀ value ∈ flag, ∃ b, value = .bool b

/-- Whether two options differ at most in the flag for log records, by name or in the order of the
fields. -/
inductive AlikeButLog : Json → Json → Prop
  | same (options : Json) : AlikeButLog options options
  | object {options options' : Json} (h : Json.AgreeBut "logToClient" options options')
      (hflag : IsFlag (options.get? "logToClient")) (hflag' : IsFlag (options'.get? "logToClient")) :
      AlikeButLog options options'
  | list (ids : Json) (flag flag' : Option Bool) :
      AlikeButLog (.arr (ids :: (flag.map .bool).toList)) (.arr (ids :: (flag'.map .bool).toList))

theorem IsFlag.exists_fieldOr {flag : Option Json} (h : IsFlag flag) :
    ∃ b, fieldOr false Json.asBool? flag = some b := by
  cases flag with
  | none => exact ⟨false, rfl⟩
  | some value =>
    obtain ⟨b, rfl⟩ := h value rfl
    exact ⟨b, rfl⟩

/-- With a flag that can be read, the languages are read from their own field. -/
theorem languageIds_ofFields {ids flag : Option Json} (hflag : IsFlag flag) :
    ((do return (⟨← fieldOr ["abnf"] stringList? ids, ← fieldOr false Json.asBool? flag⟩ : Config) :
      Option Config).getD {}).languageIds = (fieldOr ["abnf"] stringList? ids).getD ["abnf"] := by
  obtain ⟨b, hb⟩ := hflag.exists_fieldOr
  rw [hb]
  cases fieldOr ["abnf"] stringList? ids <;> rfl

theorem isFlag_map_bool (flag : Option Bool) : IsFlag (flag.map .bool) := by
  intro value hvalue
  obtain ⟨b, -, rfl⟩ := Option.map_eq_some_iff.mp hvalue
  exact ⟨b, rfl⟩

theorem languageIds_list (ids : Json) (flag : Option Bool) :
    (ofOptions (.arr (ids :: (flag.map .bool).toList))).languageIds =
      (fieldOr ["abnf"] stringList? (some ids)).getD ["abnf"] := by
  rw [← languageIds_ofFields (isFlag_map_bool flag)]
  cases flag <;> rfl

/-- The flag does not change the languages. -/
theorem AlikeButLog.languageIds {options options' : Json} (h : AlikeButLog options options') :
    (ofOptions options).languageIds = (ofOptions options').languageIds := by
  cases h with
  | same => rfl
  | object h hflag hflag' =>
    have hids : options.get? "languageIds" = options'.get? "languageIds" := h.get? (by decide)
    cases h with
    | intro fields fields' _ =>
      exact (languageIds_ofFields hflag).trans (hids ▸ (languageIds_ofFields hflag').symm)
  | list ids flag flag' => rw [languageIds_list, languageIds_list]

end Config

/-- Whether the params of two `initialize` requests differ at most in the flag for log records. -/
def Params.AlikeButLog (params params' : Json) : Prop :=
  params = params' ∨
    Json.AgreeBut "initializationOptions" params params' ∧
      Config.AlikeButLog (params.field "initializationOptions") (params'.field "initializationOptions")

/-- Whether two messages are the same, but for the flag for log records in an `initialize` request. -/
inductive Message.AlikeButLog : Message → Message → Prop
  | same (m : Message) : AlikeButLog m m
  | start (id : RequestId) {params params' : Json} (h : Params.AlikeButLog params params') :
      AlikeButLog (.request id "initialize" params) (.request id "initialize" params')

/-- Either both params start a session, with options that are alike, or none of them does. -/
theorem Params.AlikeButLog.initializationOptions? {params params' : Json}
    (h : Params.AlikeButLog params params') :
    Option.Rel Config.AlikeButLog (initializationOptions? params) (initializationOptions? params') := by
  have hstart : startOfSession params = startOfSession params' := by
    rcases h with rfl | ⟨hagree, -⟩
    · rfl
    · exact Shape.object_congr hagree (by simp [Shape.Field.optional, Shape.Field.required])
  have hoptions : Config.AlikeButLog (params.field "initializationOptions")
      (params'.field "initializationOptions") := by
    rcases h with rfl | ⟨-, hoptions⟩
    · exact .same _
    · exact hoptions
  rw [Params.initializationOptions?, Params.initializationOptions?, hstart]
  split
  · exact .some hoptions
  · exact .none

/-! ### Sessions with another flag -/

namespace Session

/-- A session with the flag for log records set. -/
def withLog (session : Session) (flag : Bool) : Session :=
  { session with config := { session.config with logToClient := flag } }

theorem fresh_of_alike {options options' : Json} (h : Config.AlikeButLog options options') :
    fresh (.ofOptions options') =
      (fresh (.ofOptions options)).withLog (Config.ofOptions options').logToClient := by
  simp only [fresh, withLog, h.languageIds]

/-- What is told about a document changes the same, and is logged the same, under any flag. -/
theorem hear_withLog (session : Session) (flag : Bool) (notice : DocumentNotice) :
    (session.withLog flag).hear notice =
      ((session.hear notice).1.withLog flag, (session.hear notice).2) := by
  cases notice with
  | opened uri languageId text =>
    have haccepts :
        (session.withLog flag).config.accepts languageId = session.config.accepts languageId := rfl
    simp only [hear, openDocument, haccepts]
    split <;> rfl
  | changed uri version changes =>
    have hopen : (session.withLog flag).openDocuments = session.openDocuments := rfl
    simp only [hear, changeDocument, hopen]
    split
    · cases lastFullText? changes <;> rfl
    · rfl
  | closed uri => rfl

theorem told_withLog (session : Session) (flag : Bool) (m : Message) :
    (session.withLog flag).told m = (session.told m).withLog flag := by
  rw [told, told]
  cases m.notice? with
  | none => rfl
  | some notice => simp only [hear_withLog]

theorem filter_notify (session : Session) (method : String) (params : Json) :
    (session.notify method params).2.filter (!·.isLog) = [] := by
  rw [notify]
  split <;> exact filter_logs session _

/-- A request is answered the same under any flag. -/
theorem filter_request_withLog (session : Session) (flag : Bool) (id : RequestId) (method : String)
    (params : Json) :
    ((session.withLog flag).request id method params).filter (!·.isLog) =
      (session.request id method params).filter (!·.isLog) := by
  rw [request, request]
  split
  · simp only [List.filter_append, filter_logs]
  · simp only [List.filter_append, filter_logs]
  · rename_i query _
    have hanswer : (session.withLog flag).answer query = session.answer query := answer_congr rfl
    simp only [List.filter_append, filter_logs, hanswer]

end Session

/-! ### Two runs in lockstep -/

/-- Whether two servers are at the same point of their lives, but for the flag for log records. -/
inductive Phase.Matches : Phase → Phase → Prop
  | awaitingInitialize : Matches .awaitingInitialize .awaitingInitialize
  | awaitingInitialized {params params' : Json} (h : Params.AlikeButLog params params') :
      Matches (.awaitingInitialized params) (.awaitingInitialized params')
  | running (session : Session) (flag : Bool) :
      Matches (.running session) (.running (session.withLog flag))
  | shuttingDown (session : Session) (flag : Bool) :
      Matches (.shuttingDown session) (.shuttingDown (session.withLog flag))
  | ended (ending : Ending) : Matches (.ended ending) (.ended ending)

namespace Phase

/-- Whether two steps lead to the same point of a life and, but for log records, give out the same. -/
def StepsMatch (step step' : Phase × List Output) : Prop :=
  step.1.Matches step'.1 ∧ step.2.filter (!·.isLog) = step'.2.filter (!·.isLog)

theorem stepAwaitingInitialize_matches {m m' : Message} (hm : m.AlikeButLog m') :
    StepsMatch (stepAwaitingInitialize m) (stepAwaitingInitialize m') := by
  cases hm with
  | start id h => exact ⟨.awaitingInitialized h, rfl⟩
  | same =>
    refine ⟨?_, rfl⟩
    fun_cases stepAwaitingInitialize m with
    | case1 id params => exact .awaitingInitialized (Or.inl rfl)
    | case2 => exact .awaitingInitialize
    | case3 => exact .ended _
    | case4 => exact .ended _
    | case5 => exact .awaitingInitialize

theorem stepAwaitingInitialized_matches {params params' : Json} (h : Params.AlikeButLog params params')
    {m m' : Message} (hm : m.AlikeButLog m') :
    StepsMatch (stepAwaitingInitialized params m) (stepAwaitingInitialized params' m') := by
  cases hm with
  | start id hparams => exact ⟨.ended _, rfl⟩
  | same =>
    have hoptions := h.initializationOptions?
    rw [stepAwaitingInitialized.eq_def, stepAwaitingInitialized.eq_def]
    generalize initializationOptions? params = options, initializationOptions? params' = options' at hoptions
    split
    · -- the only place where the flag comes in: it is all that the two new sessions differ in
      cases hoptions with
      | none => exact ⟨.ended _, rfl⟩
      | @some options options' halike =>
        refine ⟨?_, (Session.filter_logs _ _).trans (Session.filter_logs _ _).symm⟩
        show (running (.fresh (.ofOptions options))).Matches (running (.fresh (.ofOptions options')))
        rw [Session.fresh_of_alike halike]
        exact .running _ _
    · exact ⟨.ended _, rfl⟩

theorem step_running_matches (session : Session) (flag : Bool) {m m' : Message} (hm : m.AlikeButLog m') :
    StepsMatch ((running session).step m) ((running (session.withLog flag)).step m') := by
  cases hm with
  | @start id params params' h =>
    -- to a running server this is a request that it does not know, whatever its params are
    have hparams : session.request id "initialize" params = session.request id "initialize" params' := rfl
    refine ⟨.running _ _, ?_⟩
    show (session.request id "initialize" params).filter _ = _
    rw [hparams]
    exact (session.filter_request_withLog flag id "initialize" params').symm
  | same =>
    cases m with
    | response id => exact ⟨.running _ _, rfl⟩
    | request id method params =>
      by_cases hmethod : method = "shutdown"
      · subst hmethod
        exact ⟨.shuttingDown _ _, rfl⟩
      · rw [step_request session id params hmethod, step_request _ id params hmethod]
        exact ⟨.running _ _, (session.filter_request_withLog flag id method params).symm⟩
    | notification method params =>
      by_cases hmethod : method = "exit"
      · subst hmethod
        refine ⟨.ended _, ?_⟩
        simp only [step, stepRunning, Session.dispose, List.filter_append, Session.filter_logs]
      · rw [step_notification session params hmethod, step_notification _ params hmethod,
          session.told_withLog]
        exact ⟨.running _ _, (session.filter_notify _ _).trans (Session.filter_notify _ _ _).symm⟩

theorem stepShuttingDown_matches (session : Session) (flag : Bool) {m m' : Message}
    (hm : m.AlikeButLog m') :
    StepsMatch (stepShuttingDown session m) (stepShuttingDown (session.withLog flag) m') := by
  cases hm with
  | start id h => exact ⟨.ended _, rfl⟩
  | same =>
    rw [stepShuttingDown.eq_def, stepShuttingDown.eq_def]
    split
    · exact ⟨.ended _, (session.filter_logs _).trans (Session.filter_logs _ _).symm⟩
    · exact ⟨.ended _, rfl⟩

namespace Matches

variable {phase phase' : Phase}

/-- One message: the two servers stay in lockstep. -/
theorem step (h : phase.Matches phase') {m m' : Message} (hm : m.AlikeButLog m') :
    StepsMatch (phase.step m) (phase'.step m') := by
  cases h with
  | awaitingInitialize => exact stepAwaitingInitialize_matches hm
  | awaitingInitialized hparams => exact stepAwaitingInitialized_matches hparams hm
  | running session flag => exact step_running_matches session flag hm
  | shuttingDown session flag => exact stepShuttingDown_matches session flag hm
  | ended ending => exact ⟨.ended ending, rfl⟩

theorem hangUp (h : phase.Matches phase') : phase.hangUp = phase'.hangUp := by
  cases h <;> rfl

/-- A run of messages: but for log records, the two servers give out the same, and they end the same. -/
theorem run (h : phase.Matches phase') {messages messages' : List Message}
    (hmessages : List.Forall₂ Message.AlikeButLog messages messages') :
    (phase.run messages).1.filter (!·.isLog) = (phase'.run messages').1.filter (!·.isLog) ∧
      (phase.run messages).2 = (phase'.run messages').2 := by
  induction hmessages generalizing phase phase' with
  | nil => exact ⟨rfl, h.hangUp⟩
  | @cons m m' messages messages' hm _ ih =>
    obtain ⟨hnext, houtputs⟩ := h.step hm
    obtain ⟨hmore, hending⟩ := ih hnext
    refine ⟨?_, hending⟩
    show ((phase.step m).2 ++ ((phase.step m).1.run messages).1).filter _ =
      ((phase'.step m').2 ++ ((phase'.step m').1.run messages').1).filter _
    rw [List.filter_append, List.filter_append, houtputs, hmore]

end Matches

end Phase

/-- Without log messages, what is sent does not depend on the level of logging. -/
theorem Output.filter_sent (verbosity : Option LogLevel) (outputs : List Output) :
    (outputs.filterMap (sent? verbosity)).filter (!·.isLogMessage) =
      (outputs.filter (!·.isLog)).filterMap (sent? none) := by
  induction outputs with
  | nil => rfl
  | cons output outputs ih =>
    cases output with
    | result id value =>
      show _ :: (outputs.filterMap (sent? verbosity)).filter _ = _ :: _
      rw [ih]
    | failure id error =>
      show _ :: (outputs.filterMap (sent? verbosity)).filter _ = _ :: _
      rw [ih]
    | log toClient record =>
      rw [List.filter_cons_of_neg (by simp [isLog]), ← ih]
      cases hsent : (log toClient record).sent? verbosity with
      | none => rw [List.filterMap_cons_none hsent]
      | some value =>
        have hlog : value.isLogMessage = true := isLogMessage_of_sent rfl hsent
        rw [List.filterMap_cons_some hsent, List.filter_cons_of_neg (by rw [hlog]; decide)]

/-! ### A run without log messages -/

/-- The params of a request that starts a session. -/
def Message.startParams? : Message → Option Json
  | request _ method params => if method = "initialize" then some params else none
  | _ => none

/-- The options of the first request that starts a session, if it is well-formed. -/
def Server.config? (messages : List Message) : Option Config :=
  ((messages.findSome? Message.startParams?).bind initializationOptions?).map Config.ofOptions

/-- Whether an output is no log record for the client. -/
def Output.IsQuiet : Output → Prop
  | log toClient _ => toClient = false
  | _ => True

theorem Output.IsQuiet.not_isLogMessage {output : Output} (h : output.IsQuiet)
    {verbosity : Option LogLevel} {value : Json} (hsent : output.sent? verbosity = some value) :
    value.isLogMessage = false := by
  cases output with
  | result id result => rw [← Option.some.inj hsent]; rfl
  | failure id error => rw [← Option.some.inj hsent]; rfl
  | log toClient record =>
    obtain rfl : toClient = false := h
    cases hsent

namespace Session

variable {session : Session} (h : session.config.logToClient = false)

include h

theorem isQuiet_logs (records : List LogRecord) : ∀ output ∈ session.logs records, output.IsQuiet := by
  intro output houtput
  obtain ⟨record, -, rfl⟩ := List.mem_map.mp houtput
  exact h

theorem isQuiet_request (id : RequestId) (method : String) (params : Json) :
    ∀ output ∈ session.request id method params, output.IsQuiet := by
  have hlogs := isQuiet_logs h
  rw [request]
  split <;> simp only [List.forall_mem_append, List.forall_mem_singleton] <;>
    exact ⟨hlogs _, hlogs _, trivial⟩

theorem isQuiet_notify (method : String) (params : Json) :
    ∀ output ∈ (session.notify method params).2, output.IsQuiet := by
  rw [notify]
  split <;> exact isQuiet_logs h _

/-- What is told about a document leaves the flag off. -/
theorem logToClient_told (m : Message) : (session.told m).config.logToClient = false := by
  -- a session whose flag is off is the same with the flag set to off
  have hoff : session.withLog false = session := by rw [withLog, ← h]
  rw [← hoff, told_withLog]
  rfl

end Session

namespace Phase

/-- Whether the flag for log records is off, as far as it is known or will be from the messages to
come. -/
def Quiet (messages : List Message) : Phase → Prop
  | awaitingInitialize => ∀ config ∈ Server.config? messages, config.logToClient = false
  | awaitingInitialized params =>
    ∀ options ∈ initializationOptions? params, (Config.ofOptions options).logToClient = false
  | running session | shuttingDown session => session.config.logToClient = false
  | ended _ => True

theorem quiet_stepAwaitingInitialize {m : Message} {messages : List Message}
    (h : awaitingInitialize.Quiet (m :: messages)) :
    (stepAwaitingInitialize m).1.Quiet messages ∧
      ∀ output ∈ (stepAwaitingInitialize m).2, output.IsQuiet := by
  -- a message that starts no session is skipped in the search for the options, too
  have hskip : m.startParams? = none → awaitingInitialize.Quiet messages := by
    intro hnone
    rwa [Quiet, Server.config?, List.findSome?_cons, hnone] at h
  fun_cases stepAwaitingInitialize m with
  | case1 id params =>
    refine ⟨fun options hoptions => h _ ?_, by simp [Output.IsQuiet]⟩
    exact Option.map_eq_some_iff.mpr ⟨options, hoptions, rfl⟩
  | case2 id method params hmethod =>
    exact ⟨hskip (if_neg hmethod), by simp [Output.IsQuiet]⟩
  | case3 => exact ⟨trivial, by simp⟩
  | case4 => exact ⟨trivial, by simp⟩
  | case5 => exact ⟨hskip rfl, by simp⟩

theorem quiet_step_running {session : Session} (h : session.config.logToClient = false) (m : Message)
    (messages : List Message) :
    ((running session).step m).1.Quiet messages ∧
      ∀ output ∈ ((running session).step m).2, output.IsQuiet := by
  cases m with
  | response id => exact ⟨h, by simp [step, stepRunning]⟩
  | request id method params =>
    by_cases hmethod : method = "shutdown"
    · subst hmethod
      exact ⟨h, by simp [step, stepRunning, Output.IsQuiet]⟩
    · rw [step_request session id params hmethod]
      exact ⟨h, Session.isQuiet_request h id method params⟩
  | notification method params =>
    by_cases hmethod : method = "exit"
    · subst hmethod
      exact ⟨trivial, List.forall_mem_append.mpr
        ⟨Session.isQuiet_logs h _, Session.isQuiet_logs h _⟩⟩
    · rw [step_notification session params hmethod]
      exact ⟨Session.logToClient_told h _, Session.isQuiet_notify h method params⟩

namespace Quiet

variable {phase : Phase}

/-- One message: no log record goes to the client, and the flag stays off. -/
theorem step {m : Message} {messages : List Message} (h : phase.Quiet (m :: messages)) :
    (phase.step m).1.Quiet messages ∧ ∀ output ∈ (phase.step m).2, output.IsQuiet := by
  cases phase with
  | awaitingInitialize => exact quiet_stepAwaitingInitialize h
  | awaitingInitialized params =>
    rw [Phase.step]
    fun_cases stepAwaitingInitialized params m with
    | case1 => exact ⟨trivial, by simp⟩
    | case2 value options hoptions session =>
      have hflag : session.config.logToClient = false := h options hoptions
      exact ⟨hflag, Session.isQuiet_logs hflag _⟩
    | case3 => exact ⟨trivial, by simp⟩
  | running session => exact quiet_step_running h m messages
  | shuttingDown session =>
    rw [Phase.step]
    fun_cases stepShuttingDown session m with
    | case1 => exact ⟨trivial, Session.isQuiet_logs h _⟩
    | case2 => exact ⟨trivial, by simp⟩
  | ended ending => exact ⟨trivial, by simp [Phase.step]⟩

/-- A run of messages: no log record goes to the client. -/
theorem run {messages : List Message} (h : phase.Quiet messages) :
    ∀ output ∈ (phase.run messages).1, output.IsQuiet := by
  induction messages generalizing phase with
  | nil => simp [Phase.run]
  | cons m messages ih =>
    obtain ⟨hnext, houtputs⟩ := h.step
    exact List.forall_mem_append.mpr ⟨houtputs, ih hnext⟩

end Quiet

end Phase

/-- Logging does not change the protocol.  Take any messages to a new server, the same messages with another
flag for log records in the options of the client, and any two levels of logging.  Without log messages, both
servers send the same messages in the same order, and they end in the same way.  If the flag is off, or the
options are malformed or never come, no log message is sent at all. -/
theorem logging_keeps_protocol (messages messages' : List Message) (verbosity verbosity' : Option LogLevel)
    (h : List.Forall₂ Message.AlikeButLog messages messages') :
    (Server.sent verbosity messages).filter (!·.isLogMessage) =
        (Server.sent verbosity' messages').filter (!·.isLogMessage) ∧
      (Server.run messages).2 = (Server.run messages').2 ∧
      ((∀ config ∈ Server.config? messages, config.logToClient = false) →
        ∀ value ∈ Server.sent verbosity messages, value.isLogMessage = false) := by
  obtain ⟨houtputs, hending⟩ := Phase.Matches.awaitingInitialize.run h
  refine ⟨?_, hending, ?_⟩
  · rw [Server.sent, Server.sent, Output.filter_sent, Output.filter_sent]
    exact congrArg (List.filterMap (Output.sent? none)) houtputs
  · intro hflag value hvalue
    have hquiet : Phase.awaitingInitialize.Quiet messages := hflag
    obtain ⟨output, houtput, hsent⟩ := List.mem_filterMap.mp hvalue
    exact (hquiet.run output houtput).not_isLogMessage hsent

/-- A short session of a client that sets the flag for log records. -/
def Message.shortSession (flag : Bool) : List Message :=
  [.request (.number 1) "initialize"
      (.obj [("capabilities", .obj []), ("initializationOptions", .obj [("logToClient", .bool flag)])]),
    .notification "initialized" .null,
    .request (.name "symbols") "textDocument/documentSymbol" .null,
    .notification "exit" .null]

theorem Message.shortSession_alike (flag flag' : Bool) :
    List.Forall₂ AlikeButLog (shortSession flag) (shortSession flag') := by
  have hisFlag : ∀ b, Config.IsFlag ((Json.obj [("logToClient", .bool b)]).get? "logToClient") :=
    fun b => Config.isFlag_map_bool (some b)
  have hoptions : Json.AgreeBut "logToClient" (.obj [("logToClient", .bool flag)])
      (.obj [("logToClient", .bool flag')]) := by
    refine .intro _ _ fun other hother => ?_
    simp [Json.get?, hother.symm]
  refine .cons (.start _ (Or.inr ⟨.intro _ _ fun other hother => ?_,
    .object hoptions (hisFlag flag) (hisFlag flag')⟩))
    (.cons (.same _) (.cons (.same _) (.cons (.same _) .nil)))
  simp [Json.get?, hother.symm]

/-- With the flag on, log messages are among what is sent; without them it is what is sent with the flag
off. -/
theorem logging_keeps_protocol_short :
    (Server.sent (some .info) (Message.shortSession true)).any Json.isLogMessage = true ∧
      (Server.sent (some .trace) (Message.shortSession false)).filter (!·.isLogMessage) =
        (Server.sent (some .info) (Message.shortSession true)).filter (!·.isLogMessage) ∧
      (Server.run (Message.shortSession false)).2 = (Server.run (Message.shortSession true)).2 ∧
      ∀ value ∈ Server.sent (some .trace) (Message.shortSession false), value.isLogMessage = false := by
  obtain ⟨hsent, hending, hquiet⟩ := logging_keeps_protocol (Message.shortSession false)
    (Message.shortSession true) (some .trace) (some .info) (Message.shortSession_alike false true)
  have hconfig : Server.config? (Message.shortSession false) = some ⟨["abnf"], false⟩ := by rfl
  refine ⟨by rfl, hsent, hending, hquiet fun config hmem => ?_⟩
  rw [hconfig] at hmem
  rw [← Option.some.inj hmem]

end Abnf
