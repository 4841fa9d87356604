/-
Requests and their responses.

A server takes messages until it ends (`Phase.taken`).  Each request that it takes is answered at once and
once, whatever phase the server is in, unless the request itself breaks the protocol and so ends the server
(`Phase.answered_step`); nothing else is answered.  So the answers of a run are those to the requests that
were taken, in their order (`Phase.answered_run`), and what is sent besides log records are these answers
(`Output.respondsTo_sent`).  `requests_answered_in_order` puts this together.
-/
import Mathlib.Data.List.Forall2
import Abnf.Proofs.OpenDocuments

namespace Abnf

open Params

/-- The id of a message that is a request. -/
def Message.requestId? : Message → Option RequestId
  | request id _ _ => some id
  | _ => none

/-- The id of the request that an output answers; a log record answers none. -/
def Output.answered? : Output → Option RequestId
  | result id _ | failure id _ => some id
  | log _ _ => none

/-! ### What is sent -/

namespace Json

/-- Whether a message to the client is a log record. -/
def isLogMessage (value : Json) : Bool :=
  match value.get? "method" with
  | some (str method) => method == "window/logMessage"
  | _ => false

/-- Whether a message to the client is the response to a request: it carries the id of the request, and
either a result or an error. -/
structure RespondsTo (id : RequestId) (value : Json) : Prop where
  id : value.get? "id" = some id.toJson
  noMethod : value.get? "method" = none
  oneOutcome : (value.get? "result").isSome = !(value.get? "error").isSome

theorem RespondsTo.not_isLogMessage {id : RequestId} {value : Json} (h : RespondsTo id value) :
    value.isLogMessage = false := by
  rw [isLogMessage, h.noMethod]

end Json

namespace Output

/-- An answer is sent as a response, whatever is logged. -/
theorem exists_sent_of_answered {output : Output} {id : RequestId} (h : output.answered? = some id)
    (verbosity : Option LogLevel) : ∃ value, output.sent? verbosity = some value ∧ value.RespondsTo id := by
  cases output with
  | result resultId value =>
    obtain rfl : resultId = id := Option.some.inj h
    exact ⟨_, rfl, rfl, rfl, rfl⟩
  | failure failureId error =>
    obtain rfl : failureId = id := Option.some.inj h
    exact ⟨_, rfl, rfl, rfl, rfl⟩
  | log toClient record => cases h

/-- What answers no request is sent as a log record, if at all. -/
theorem isLogMessage_of_sent {output : Output} (h : output.answered? = none)
    {verbosity : Option LogLevel} {value : Json} (hsent : output.sent? verbosity = some value) :
    value.isLogMessage = true := by
  cases output with
  | result id value => cases h
  | failure id error => cases h
  | log toClient record =>
    rw [sent?] at hsent
    split at hsent
    · rw [← Option.some.inj hsent]
      rfl
    · cases hsent

/-- Without log records, what is sent for some outputs are the responses to the requests that they
answer. -/
theorem respondsTo_sent (verbosity : Option LogLevel) (outputs : List Output) :
    List.Forall₂ Json.RespondsTo (outputs.filterMap answered?)
      ((outputs.filterMap (sent? verbosity)).filter (!·.isLogMessage)) := by
  induction outputs with
  | nil => exact .nil
  | cons output outputs ih =>
    cases hid : output.answered? with
    | some id =>
      obtain ⟨value, hsent, hvalue⟩ := exists_sent_of_answered hid verbosity
      rw [List.filterMap_cons_some hid, List.filterMap_cons_some hsent,
        List.filter_cons_of_pos (by rw [hvalue.not_isLogMessage]; rfl)]
      exact .cons hvalue ih
    | none =>
      rw [List.filterMap_cons_none hid]
      cases hsent : output.sent? verbosity with
      | none =>
        rw [List.filterMap_cons_none hsent]
        exact ih
      | some value =>
        rw [List.filterMap_cons_some hsent,
          List.filter_cons_of_neg (by rw [isLogMessage_of_sent hid hsent]; decide)]
        exact ih

end Output

/-! ### What is answered -/

namespace Session

theorem answered_logs (session : Session) (records : List LogRecord) :
    (session.logs records).filterMap Output.answered? = [] := by
  rw [List.filterMap_eq_nil_iff]
  intro output houtput
  obtain ⟨record, -, rfl⟩ := List.mem_map.mp houtput
  rfl

theorem answered_request (session : Session) (id : RequestId) (method : String) (params : Json) :
    (session.request id method params).filterMap Output.answered? = [id] := by
  rw [request]
  split <;> simp only [List.filterMap_append, answered_logs, List.nil_append] <;> rfl

theorem answered_notify (session : Session) (method : String) (params : Json) :
    (session.notify method params).2.filterMap Output.answered? = [] := by
  rw [notify]
  split <;> exact answered_logs session _

end Session

namespace Phase

/-- Whether a server takes no more messages. -/
def hasEnded : Phase → Bool
  | ended _ => true
  | _ => false

/-- The messages that a server takes: all of them up to the one that ends it. -/
def taken (phase : Phase) : List Message → List Message
  | [] => []
  | m :: ms => if phase.hasEnded then [] else m :: (phase.step m).1.taken ms

theorem taken_ended (ending : Ending) (messages : List Message) : (ended ending).taken messages = [] := by
  cases messages <;> rfl

theorem run_ended (ending : Ending) (messages : List Message) :
    (ended ending).run messages = ([], ending) := by
  induction messages with
  | nil => rfl
  | cons m messages ih =>
    show ([] ++ ((ended ending).run messages).1, ((ended ending).run messages).2) = _
    rw [ih]
    rfl

/-- One message: a request is answered once, or it ends the server with a fault.  Another message is not
answered. -/
theorem answered_step {phase : Phase} (h : phase.hasEnded = false) (m : Message) :
    (phase.step m).2.filterMap Output.answered? = m.requestId?.toList ∨
      (∃ id method params, m = .request id method params) ∧
        ∃ f, phase.step m = (fault f, []) := by
  cases phase with
  | awaitingInitialize =>
    rw [step]
    fun_cases stepAwaitingInitialize m <;> exact Or.inl rfl
  | awaitingInitialized params =>
    rw [step]
    fun_cases stepAwaitingInitialized params m with
    | case1 => exact Or.inl rfl
    | case2 => exact Or.inl (Session.answered_logs _ _)
    | case3 =>
      -- the protocol is broken, and only a request is left without an answer
      cases m with
      | request id method params => exact Or.inr ⟨⟨_, _, _, rfl⟩, _, rfl⟩
      | response id => exact Or.inl rfl
      | notification method params => exact Or.inl rfl
  | running session =>
    refine Or.inl ?_
    rw [step]
    fun_cases stepRunning session m with
    | case1 => rfl
    | case2 id method params => exact session.answered_request id method params
    | case3 => rfl
    | case4 =>
      rw [List.filterMap_append, session.answered_logs, Session.dispose, session.answered_logs]
      rfl
    | case5 method params hexit next outputs hnotify =>
      have hnone := session.answered_notify method params
      rw [hnotify] at hnone
      exact hnone
  | shuttingDown session =>
    rw [step]
    fun_cases stepShuttingDown session m with
    | case1 => exact Or.inl (session.answered_logs _)
    | case2 =>
      cases m with
      | request id method params => exact Or.inr ⟨⟨_, _, _, rfl⟩, _, rfl⟩
      | response id => exact Or.inl rfl
      | notification method params => exact Or.inl rfl
  | ended ending => cases h

/-- A message that is no request is not answered. -/
theorem answered_step_of_not_request (phase : Phase) {m : Message} (h : m.requestId? = none) :
    (phase.step m).2.filterMap Output.answered? = [] := by
  cases hended : phase.hasEnded with
  | true =>
    cases phase with
    | ended ending => rfl
    | _ => cases hended
  | false =>
    rcases answered_step hended m with hanswered | ⟨⟨id, method, params, rfl⟩, -⟩
    · rw [hanswered, h]
      rfl
    · cases h

/-- A run of messages: the requests that are taken are answered in their order, but for one that ends the
server with a fault. -/
theorem answered_run (phase : Phase) (messages : List Message) :
    ∃ answered unanswered, phase.taken messages = answered ++ unanswered ∧
      (phase.run messages).1.filterMap Output.answered? = answered.filterMap Message.requestId? ∧
      (unanswered = [] ∨ ∃ id method params f, unanswered = [.request id method params] ∧
        phase.after (answered ++ unanswered) = fault f ∧
        (phase.run messages).2 = .failed (.protocol f)) := by
  induction messages generalizing phase with
  | nil => exact ⟨[], [], rfl, rfl, Or.inl rfl⟩
  | cons m messages ih =>
    cases hended : phase.hasEnded with
    | true =>
      cases phase with
      | ended ending =>
        rw [taken_ended, run_ended]
        exact ⟨[], [], rfl, rfl, Or.inl rfl⟩
      | _ => cases hended
    | false =>
      have htaken : phase.taken (m :: messages) = m :: (phase.step m).1.taken messages := by
        rw [taken, hended]
        rfl
      rw [htaken]
      rcases answered_step hended m with hanswered | ⟨⟨id, method, params, rfl⟩, f, hstep⟩
      · obtain ⟨answered, unanswered, hnext, hids, hlast⟩ := ih (phase.step m).1
        refine ⟨m :: answered, unanswered, by rw [hnext, List.cons_append], ?_, hlast⟩
        show ((phase.step m).2 ++ ((phase.step m).1.run messages).1).filterMap _ = _
        rw [List.filterMap_append, hanswered, hids, List.filterMap_cons]
        cases m.requestId? <;> rfl
      · -- the request is the last message that is taken
        have hrun : phase.run (.request id method params :: messages) =
            ([], .failed (.protocol f)) := by
          rw [run, hstep]
          show ([] ++ ((fault f).run messages).1, ((fault f).run messages).2) = _
          rw [fault, run_ended]
          rfl
        refine ⟨[], [.request id method params], ?_, by rw [hrun]; rfl,
          Or.inr ⟨id, method, params, f, rfl, ?_, by rw [hrun]⟩⟩
        · rw [hstep, fault, taken_ended]
          rfl
        · show (phase.step (.request id method params)).1 = fault f
          rw [hstep]

end Phase

/-! ### Requests that cannot be answered with a result -/

namespace Params

/-- The methods that ask about a document. -/
def queryMethods : List String :=
  ["textDocument/hover", "textDocument/definition", "textDocument/references",
    "textDocument/documentSymbol", "textDocument/prepareRename", "textDocument/rename",
    "textDocument/completion"]

theorem query?_eq_none_iff {method : String} {params : Json} :
    query? method params = none ↔ method ∉ queryMethods := by
  fun_cases query? method params <;> simp_all [queryMethods]

end Params

namespace Session

/-- Whether a running server answers a request with an error and stays as it is. -/
def Refuses (session : Session) (id : RequestId) (method : String) (params : Json)
    (error : RequestError) : Prop :=
  ∃ outputs, (Phase.running session).step (.request id method params) = (.running session, outputs) ∧
    outputs.filter (!·.isLog) = [.failure id error]

variable (session : Session) (id : RequestId) {method : String} (params : Json)

theorem refuses_unknown (hmethod : method ≠ "shutdown") (hunknown : method ∉ queryMethods) :
    session.Refuses id method params (.unknownMethod method) := by
  refine ⟨_, Phase.step_request session id params hmethod, ?_⟩
  rw [request, query?_eq_none_iff.mpr hunknown]
  simp only [List.filter_append, filter_logs, List.nil_append]
  rfl

theorem refuses_undecodable (hmethod : method ∈ queryMethods)
    (hparams : ∀ query, query? method params ≠ some (some query)) :
    session.Refuses id method params .invalidParams := by
  have hnone : query? method params = some none := by
    cases hquery : query? method params with
    | none => exact absurd hmethod (query?_eq_none_iff.mp hquery)
    | some query? =>
      cases query? with
      | none => rfl
      | some query => exact absurd hquery (hparams query)
  have hshutdown : method ≠ "shutdown" := by
    rintro rfl
    exact absurd hmethod (by decide)
  refine ⟨_, Phase.step_request session id params hshutdown, ?_⟩
  rw [request, hnone]
  simp only [List.filter_append, filter_logs, List.nil_append]
  rfl

end Session

/-- Every request is answered once, in order.  Take any messages to a new server and any level of logging.
Without log records, the server sends one response to each request that it takes, in their order.  The only
request without a response is one that is taken last and ends the server with a fault of the protocol.  A
message that is no request is never answered.  A running server answers a request that it does not know, or
whose params cannot be decoded, with an error; it runs on, with the same documents. -/
theorem requests_answered_in_order (verbosity : Option LogLevel) (messages : List Message) :
    (∃ answered unanswered, Phase.awaitingInitialize.taken messages = answered ++ unanswered ∧
      List.Forall₂ Json.RespondsTo (answered.filterMap Message.requestId?)
        ((Server.sent verbosity messages).filter (!·.isLogMessage)) ∧
      (unanswered = [] ∨ ∃ id method params f, unanswered = [.request id method params] ∧
        Phase.awaitingInitialize.after (answered ++ unanswered) = .fault f ∧
        (Server.run messages).2 = .failed (.protocol f))) ∧
      (∀ (phase : Phase) (m : Message), m.requestId? = none →
        (phase.step m).2.filterMap Output.answered? = []) ∧
      ∀ (session : Session) (id : RequestId) (method : String) (params : Json),
        (method ≠ "shutdown" → method ∉ queryMethods →
          session.Refuses id method params (.unknownMethod method)) ∧
        (method ∈ queryMethods → (∀ query, query? method params ≠ some (some query)) →
          session.Refuses id method params .invalidParams) := by
  refine ⟨?_, fun phase m hm => phase.answered_step_of_not_request hm, fun session id method params =>
    ⟨session.refuses_unknown id params, session.refuses_undecodable id params⟩⟩
  obtain ⟨answered, unanswered, htaken, hids, hlast⟩ := Phase.awaitingInitialize.answered_run messages
  refine ⟨answered, unanswered, htaken, ?_, hlast⟩
  rw [← hids]
  exact Output.respondsTo_sent verbosity (Server.run messages).1

/-- A request before the start is refused, one that is not known is refused later, and one after the request
to shut down ends the server: it is the only one without a response. -/
theorem requests_answered_in_order_until_fault :
    let messages : List Message :=
      [.request (.number 1) "textDocument/hover" .null,
        .request (.number 2) "initialize" (.obj [("capabilities", .obj [])]),
        .notification "initialized" .null, .request (.name "x") "x" .null,
        .request (.number 3) "shutdown" .null, .request (.number 4) "textDocument/hover" .null,
        .request (.number 5) "shutdown" .null]
    (Server.run messages).2 = .failed (.protocol .unexpectedDuringShutdown) ∧
      List.Forall₂ Json.RespondsTo [.number 1, .number 2, .name "x", .number 3]
        ((Server.sent none messages).filter (!·.isLogMessage)) := by
  intro messages
  have hending : (Server.run messages).2 = .failed (.protocol .unexpectedDuringShutdown) := rfl
  refine ⟨hending, ?_⟩
  obtain ⟨⟨answered, unanswered, htaken, hresponses, hlast⟩, -⟩ :=
    requests_answered_in_order none messages
  rcases hlast with rfl | ⟨id, method, params, f, rfl, -⟩
  · -- there are five requests up to the fault and four responses
    rw [List.append_nil] at htaken
    rw [← htaken] at hresponses
    exact absurd hresponses.length_eq (by decide)
  · have hanswered : messages.take 5 = answered := by
      have hfront := congrArg List.dropLast htaken
      rwa [List.dropLast_concat] at hfront
    rw [← hanswered] at hresponses
    exact hresponses

end Abnf
