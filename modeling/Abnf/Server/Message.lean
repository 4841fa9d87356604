/-
Messages of the protocol between an editor and a server.

A message has an id, a method, or both: a request has both, a notification has a method only, and a
response has an id only.

An error has the code of the protocol.  The texts for requests before `initialize` and for params that do not
decode are placeholders, since they would quote the message or the decoder.
-/
import Abnf.Json.Basic
import Abnf.Log

namespace Abnf

/-- What ties a response to its request. -/
inductive RequestId where
  | number (value : Int)
  | name (value : String)
deriving DecidableEq

namespace RequestId

/-- An id is a string or a number of 32 bits. -/
def ofJson? : Json → Option RequestId
  | .str s => some (name s)
  | value => value.asInt32?.map number

def toJson : RequestId → Json
  | number n => .int n
  | name s => .str s

end RequestId

/-- A message from the client. -/
inductive Message where
  | request (id : RequestId) (method : String) (params : Json)
  | response (id : RequestId)
  | notification (method : String) (params : Json)

namespace Message

/-- The message that a value writes; params that are missing are null. -/
def ofJson? (value : Json) : Option Message :=
  let params := value.field "params"
  match value.get? "id", value.get? "method" with
  | some id, some method => do
    return request (← RequestId.ofJson? id) (← method.asString?) params
  | some id, none => (RequestId.ofJson? id).map response
  | none, some method => method.asString?.map (notification · params)
  | none, none => none

end Message

/-- Why a request has no result. -/
inductive RequestError where
  | notInitialized
  | unknownMethod (method : String)
  | invalidParams
deriving DecidableEq

namespace RequestError

/-- The number of an error in the protocol. -/
def code : RequestError → Int
  | notInitialized => -32002
  | unknownMethod _ => -32601
  | invalidParams => -32602

def message : RequestError → String
  | notInitialized => "expected initialize request"
  | unknownMethod method => "unknown request: " ++ method
  | invalidParams => "invalid params"

end RequestError

/-- What a server gives out: the result of a request, or a log record, which is sent to the client
only if the client asked for it. -/
inductive Output where
  | result (id : RequestId) (value : Json)
  | failure (id : RequestId) (error : RequestError)
  | log (toClient : Bool) (record : LogRecord)

/-- The number of a level in the protocol. -/
def LogLevel.messageType : LogLevel → Nat
  | error => 1
  | warn => 2
  | info => 3
  | debug | trace => 4

/-- A log record as a notification to the client. -/
def LogRecord.toJson (r : LogRecord) : Json :=
  .obj [("method", .str "window/logMessage"),
    ("params", .obj [("type", .nat r.level.messageType), ("message", .str r.render)])]

namespace Output

/-- The message that is sent for an output when records up to a level are logged.  An answer is sent at any
level. -/
def sent? (verbosity : Option LogLevel) : Output → Option Json
  | result id value => some (.obj [("id", id.toJson), ("result", value)])
  | failure id error =>
    some (.obj [("id", id.toJson),
      ("error", .obj [("code", .int error.code), ("message", .str error.message)])])
  | log toClient record =>
    if toClient && record.level.isEnabled verbosity then some record.toJson else none

end Output

end Abnf
