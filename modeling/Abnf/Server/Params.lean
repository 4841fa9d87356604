/-
Params of requests and notifications.

Each reader gives none for a value that does not have the shape that the protocol asks for.  Fields
that are not known are ignored.  A record may also be written as the list of all its fields, except
that the params of a request that takes progress tokens are always an object.
-/
import Abnf.Json.Shape
import Abnf.Server.ClientCapabilities
import Abnf.Server.Message
import Abnf.Server.Uri
import Abnf.Text.Editor

namespace Abnf.Params

/-! ### Shapes -/

/-- The fields of a record in a given order: those of an object by their names, or the items of a
list of as many items. -/
def fields? (names : List String) : Json → Option (List (Option Json))
  | .obj fs => some (names.map (Json.obj fs).get?)
  | .arr items => if items.length = names.length then some (items.map some) else none
  | _ => none

/-- A field that may be absent or null. -/
def optional? (decode : Json → Option α) : Option Json → Option (Option α)
  | none => some none
  | some .null => some none
  | some value => (decode value).map some

/-- A reference to a document. -/
def uri? (value : Json) : Option String := value.asString?.filter Uri.isReference

/-- A token with which the progress of a request is told; it has the shape of an id. -/
def progressToken? : Json → Option RequestId := RequestId.ofJson?

def position? (value : Json) : Option EditorPosition :=
  match fields? ["line", "character"] value with
  | some [some line, some character] => do return ⟨← line.asUInt32?, ← character.asUInt32?⟩
  | _ => none

def range? (value : Json) : Option EditorRange :=
  match fields? ["start", "end"] value with
  | some [some start, some stop] => do return ⟨← position? start, ← position? stop⟩
  | _ => none

/-- The document that a request is about. -/
def documentId? (value : Json) : Option String :=
  match fields? ["uri"] value with
  | some [some uri] => uri? uri
  | _ => none

/-! ### Requests -/

/-- A place in a document. -/
structure Place where
  uri : String
  position : EditorPosition

/-- The place that two fields give. -/
def placeOf? : Option Json → Option Json → Option Place
  | some document, some position => do return ⟨← documentId? document, ← position? position⟩
  | _, _ => none

/-- A place that is written as a record of its own. -/
def place? (value : Json) : Option Place :=
  match fields? ["textDocument", "position"] value with
  | some [document, position] => placeOf? document position
  | _ => none

/-- Whether the progress tokens of a request are well-formed, those that are there. -/
def hasTokens (names : List String) (value : Json) : Bool :=
  names.all fun name => (optional? progressToken? (value.get? name)).isSome

/-- The place in an object that has other fields, too. -/
def placeIn? (tokens : List String) (value : Json) : Option Place :=
  match value with
  | .obj _ =>
    if hasTokens tokens value then placeOf? (value.get? "textDocument") (value.get? "position")
    else none
  | _ => none

/-- Whether definitions are asked for together with references. -/
def includeDeclaration? (value : Json) : Option Bool :=
  match fields? ["includeDeclaration"] value with
  | some [some flag] => flag.asBool?
  | _ => none

/-- What triggered a completion. -/
def completionContext : Shape :=
  .record [.required "triggerKind" .int32, .optional "triggerCharacter" .string]

/-- A question about a document. -/
inductive Query where
  | hover (place : Place)
  | definition (place : Place)
  | references (place : Place) (includeDefinitions : Bool)
  | symbols (uri : String)
  | prepareRename (place : Place)
  | rename (place : Place) (newName : String)
  | completion (uri : String)

/-- The document that a question is about. -/
def Query.uri : Query → String
  | hover place | definition place | references place _ | prepareRename place | rename place _ =>
    place.uri
  | symbols uri | completion uri => uri

/-- The token with which the progress of a request is told. -/
def workDone : List String := ["workDoneToken"]

/-- The tokens of a request whose results may be told in parts. -/
def workDoneAndPartial : List String := ["workDoneToken", "partialResultToken"]

/-- The params of a method as a question; none if there is no such method, and a question that is
none if the params are malformed. -/
def query? (method : String) (value : Json) : Option (Option Query) :=
  match method with
  | "textDocument/hover" => some <| (placeIn? workDone value).map .hover
  | "textDocument/definition" => some <| (placeIn? workDoneAndPartial value).map .definition
  | "textDocument/references" => some <| do
    let place ← placeIn? workDoneAndPartial value
    return .references place (← includeDeclaration? (← value.get? "context"))
  | "textDocument/documentSymbol" => some <|
    match value with
    | .obj _ =>
      if hasTokens workDoneAndPartial value then
        ((value.get? "textDocument").bind documentId?).map .symbols
      else none
    | _ => none
  | "textDocument/prepareRename" => some <| (place? value).map .prepareRename
  | "textDocument/rename" => some <| do
    let place ← placeIn? workDone value
    return .rename place (← (← value.get? "newName").asString?)
  | "textDocument/completion" => some <| do
    let place ← placeIn? workDoneAndPartial value
    if (value.get? "context").all (Shape.nullable completionContext) then
      return .completion place.uri
    else none
  | _ => none

/-! ### Notifications -/

/-- A change of a text: the new text of a part of it, or of the whole if no part is given. -/
structure ContentChange where
  range : Option EditorRange
  text : String

def contentChange? (value : Json) : Option ContentChange :=
  match fields? ["range", "rangeLength", "text"] value with
  | some [range, length, some text] => do
    let range ← optional? range? range
    let _ ← optional? Json.asUInt32? length
    return ⟨range, ← text.asString?⟩
  | _ => none

/-- What a client tells about a document. -/
inductive DocumentNotice where
  | opened (uri languageId text : String)
  | changed (uri : String) (version : Int) (changes : List ContentChange)
  | closed (uri : String)

/-- The document that a client tells about. -/
def DocumentNotice.uri : DocumentNotice → String
  | opened uri _ _ | changed uri _ _ | closed uri => uri

def opened? (value : Json) : Option DocumentNotice :=
  match fields? ["textDocument"] value with
  | some [some document] =>
    match fields? ["uri", "languageId", "version", "text"] document with
    | some [some uri, some languageId, some version, some text] => do
      let uri ← uri? uri
      let languageId ← languageId.asString?
      let _ ← version.asInt32?
      return .opened uri languageId (← text.asString?)
    | _ => none
  | _ => none

def changed? (value : Json) : Option DocumentNotice :=
  match fields? ["textDocument", "contentChanges"] value with
  | some [some document, some changes] =>
    match fields? ["uri", "version"] document with
    | some [some uri, some version] => do
      let uri ← uri? uri
      let version ← version.asInt32?
      return .changed uri version (← (← changes.asList?).mapM contentChange?)
    | _ => none
  | _ => none

def closed? (value : Json) : Option DocumentNotice :=
  match fields? ["textDocument"] value with
  | some [some document] => (documentId? document).map .closed
  | _ => none

/-- The params of a method as what is told about a document. -/
def documentNotice? (method : String) (value : Json) : Option DocumentNotice :=
  match method with
  | "textDocument/didOpen" => opened? value
  | "textDocument/didChange" => changed? value
  | "textDocument/didClose" => closed? value
  | _ => none

/-! ### The start of a session -/

def workspaceFolder : Shape := .record [.required "uri" (.readable uri?), .required "name" .string]

def clientInfo : Shape := .record [.required "name" .string, .optional "version" .string]

/-- The params with which a client starts a session. -/
def startOfSession : Shape :=
  .object
    [.optional "processId" .uint32,
      .optional "rootPath" .string,
      .optional "rootUri" (.readable uri?),
      .required "capabilities" ClientCapabilities.all,
      .optional "trace" (.word ["off", "messages", "verbose"]),
      .optional "workspaceFolders" (.list workspaceFolder),
      .optional "clientInfo" clientInfo,
      .optional "locale" .string,
      .optional "workDoneToken" (.readable progressToken?)]

/-- The options in the params with which a client starts a session; null if it gives none. -/
def initializationOptions? (value : Json) : Option Json :=
  if startOfSession value then some (value.field "initializationOptions") else none

end Abnf.Params
