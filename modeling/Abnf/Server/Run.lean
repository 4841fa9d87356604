/-
The life of a server.

A server waits for the `initialize` request, answers it and waits for the `initialized`
notification.  Then it answers requests and takes note of notifications, until the client shuts it
down.  After the `shutdown` request only the `exit` notification may come.

`Phase.step` takes a message, `Phase.hangUp` tells how a server ends whose client is gone, and
`Server.run` takes messages until the server ends; what comes after that is not looked at.

Outputs are made in order, and that is all there is to sending them.  A send never waits and never fails: the
client takes whatever comes, so no server ends because of a send or of its streams, and the thread that
writes to a stream does not appear.  How much is logged is not known while the outputs are made.  All log
records of the server are among them, and the level is a filter on the finished outputs (`Server.sent`).
Records that other parts of a program make, such as its transport, are not among them, whatever the level.
-/
import Abnf.Server.Message
import Abnf.Server.Session
import Abnf.Text.Quoted

namespace Abnf

open Params

/-- How the protocol was broken. -/
inductive ProtocolFault where
  | expectedInitialize
  | expectedInitialized
  | disconnected
  | unexpectedDuringShutdown
  | disconnectedDuringShutdown
deriving DecidableEq

def ProtocolFault.message : ProtocolFault → String
  | expectedInitialize => "expected initialize request"
  | expectedInitialized => "expected initialized notification"
  | disconnected => "disconnected channel"
  | unexpectedDuringShutdown => "unexpected message during shutdown"
  | disconnectedDuringShutdown => "channel disconnected waiting for exit notification"

/-- Why a server ends before it is shut down.  What is wrong with a value that does not decode is not told. -/
inductive ServerFailure where
  | receive
  | protocol (fault : ProtocolFault)
  | json
deriving DecidableEq

def ServerFailure.message : ServerFailure → String
  | receive => "Failed to receive message: receiving on an empty and disconnected channel"
  | protocol fault => "Protocol error: " ++ fault.message
  | json => "Invalid JSON"

/-- How a server ends. -/
inductive Ending where
  | done
  | failed (failure : ServerFailure)
deriving DecidableEq

/-- Where a server is in its life. -/
inductive Phase where
  | awaitingInitialize
  | awaitingInitialized (params : Json)
  | running (session : Session)
  | shuttingDown (session : Session)
  | ended (ending : Ending)

/-- What the server offers, as it is told to the client. -/
def Server.capabilities : Json :=
  .obj [("capabilities", .obj [
    ("textDocumentSync", .obj [("openClose", .bool true), ("change", .nat 1)]),
    ("hoverProvider", .bool true),
    ("completionProvider", .obj [("resolveProvider", .bool false)]),
    ("definitionProvider", .bool true),
    ("referencesProvider", .bool true),
    ("documentSymbolProvider", .bool true),
    ("renameProvider", .obj [("prepareProvider", .bool true)])])]

namespace Session

/-- Records of a session as outputs. -/
def logs (session : Session) (records : List LogRecord) : List Output :=
  records.map (.log session.config.logToClient)

/-- A record that names a method. -/
def methodRecord (level : LogLevel) (text method : String) : LogRecord :=
  { level, text, fields := [("method", method)] }

/-- What is given out for a request other than `shutdown`. -/
def request (session : Session) (id : RequestId) (method : String) (params : Json) :
    List Output :=
  session.logs [methodRecord .debug "Received request" method] ++
    match query? method params with
    | none =>
      session.logs [methodRecord .warn "Unknown request" method] ++
        [.failure id (.unknownMethod method)]
    | some none =>
      session.logs [methodRecord .warn "Invalid request params" method] ++
        [.failure id .invalidParams]
    | some (some query) =>
      let (answer, records) := session.answer query
      session.logs records ++ [.result id answer.toJson]

/-- What a notification other than `exit` changes, and what is given out for it. -/
def notify (session : Session) (method : String) (params : Json) : Session × List Output :=
  match documentNotice? method params with
  | some notice =>
    let (next, records) := session.hear notice
    (next, session.logs records)
  | none => (session, session.logs [methodRecord .debug "Ignored notification" method])

/-- What is given out at the end of a session. -/
def dispose (session : Session) : List Output := session.logs session.store.disposeAll.2

/-- What is given out at the start of a session. -/
def started (session : Session) : List Output :=
  session.logs
    [{ level := .info
       text := "ABNF language server started"
       fields :=
        [("language_ids", Text.bracketed (session.config.languageIds.map Text.quoted))] }]

end Session

namespace Phase

/-- The server ends with a fault of the protocol. -/
def fault (f : ProtocolFault) : Phase := ended (.failed (.protocol f))

/-- The first messages of a client: requests other than `initialize` are refused and notifications
other than `exit` are skipped. -/
def stepAwaitingInitialize : Message → Phase × List Output
  | .request id "initialize" params =>
    (awaitingInitialized params, [.result id Server.capabilities])
  | .request id _ _ => (awaitingInitialize, [.failure id .notInitialized])
  | .notification "exit" _ | .response _ => (fault .expectedInitialize, [])
  | .notification _ _ => (awaitingInitialize, [])

/-- The message after the `initialize` request. -/
def stepAwaitingInitialized (params : Json) : Message → Phase × List Output
  | .notification "initialized" _ =>
    match initializationOptions? params with
    | none => (ended (.failed .json), [])
    | some options =>
      let session := Session.fresh (.ofOptions options)
      (running session, session.started)
  | _ => (fault .expectedInitialized, [])

/-- A message to a running server. -/
def stepRunning (session : Session) : Message → Phase × List Output
  | .request id "shutdown" _ => (shuttingDown session, [.result id .null])
  | .request id method params => (running session, session.request id method params)
  | .response _ => (running session, [])
  | .notification "exit" _ =>
    (ended .done,
      session.logs [{ level := .warn, text := "Exit received without shutdown", fields := [] }] ++
        session.dispose)
  | .notification method params =>
    let (next, outputs) := session.notify method params
    (running next, outputs)

/-- The message after the `shutdown` request. -/
def stepShuttingDown (session : Session) : Message → Phase × List Output
  | .notification "exit" _ => (ended .done, session.dispose)
  | _ => (fault .unexpectedDuringShutdown, [])

/-- Takes a message; a server that has ended takes no notice of it. -/
def step : Phase → Message → Phase × List Output
  | awaitingInitialize, m => stepAwaitingInitialize m
  | awaitingInitialized params, m => stepAwaitingInitialized params m
  | running session, m => stepRunning session m
  | shuttingDown session, m => stepShuttingDown session m
  | ended ending, _ => (ended ending, [])

/-- How a server ends when no further message comes. -/
def hangUp : Phase → Ending
  | awaitingInitialize | awaitingInitialized _ => .failed (.protocol .disconnected)
  | running _ => .failed .receive
  | shuttingDown _ => .failed (.protocol .disconnectedDuringShutdown)
  | ended ending => ending

/-- What is given out for some messages, and how the server ends after them. -/
def run (phase : Phase) : List Message → List Output × Ending
  | [] => ([], phase.hangUp)
  | m :: ms =>
    let (next, outputs) := phase.step m
    let (more, ending) := next.run ms
    (outputs ++ more, ending)

end Phase

namespace Server

/-- What a new server gives out for some messages, and how it ends after them. -/
def run (messages : List Message) : List Output × Ending := Phase.awaitingInitialize.run messages

/-- The messages that a new server sends when records up to a level are logged: the outputs of its whole run
without the records that are not sent. -/
def sent (verbosity : Option LogLevel) (messages : List Message) : List Json :=
  (run messages).1.filterMap (Output.sent? verbosity)

end Server

end Abnf
