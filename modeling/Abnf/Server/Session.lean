/-
Sessions: the documents that a client has open, and what the server answers about them.

`Session.answer` answers a question and changes nothing.  `Session.hear` takes note of what the
client tells about a document: an open document of an accepted language has an entry in the
store, and the entry is the index of the text that the client told last.
-/
import Abnf.Feature.Navigation
import Abnf.Feature.Outline
import Abnf.Feature.Rename
import Abnf.Server.Answer
import Abnf.Server.Config
import Abnf.Server.Params
import Abnf.Store

namespace Abnf

open Params

/-- What a server remembers between messages. -/
structure Session where
  config : Config
  /-- The documents that were accepted when they were opened and are not closed yet. -/
  openDocuments : Table Unit
  store : Store

namespace Session

/-- A session without documents. -/
def fresh (config : Config) : Session := ⟨config, .empty, .empty⟩

/-! ### Questions -/

/-- The index of a document and the offset of a position in it. -/
def locate? (session : Session) (place : Place) : Option (Index × Nat) := do
  let index ← session.store.get? place.uri
  let offset ← index.tree.source.editorOffsetOf? place.position
  return (index, offset)

/-- A span of a document as a range of an editor. -/
def rangeOf (index : Index) (span : Span) : EditorRange := index.tree.source.editorRangeOf span

/-- The fields that tell a position. -/
def positionFields (place : Place) : List (String × String) :=
  [("line", toString place.position.line), ("character", toString place.position.character)]

def hover (session : Session) (place : Place) : Answer :=
  ((do
    let (index, offset) ← session.locate? place
    let card ← index.hover? offset
    return Answer.hover card.content.markdown (rangeOf index card.span)) : Option Answer).getD
      .nothing

def gotoDefinition (session : Session) (place : Place) : Answer :=
  ((do
    let (index, offset) ← session.locate? place
    let location ← index.gotoDefinition? offset
    return Answer.definition location.document (rangeOf index location.span)) :
      Option Answer).getD .nothing

def findReferences (session : Session) (place : Place) (includeDefinitions : Bool) : Answer :=
  match session.locate? place with
  | none => .nothing
  | some (index, offset) =>
    match index.findReferences offset includeDefinitions with
    | [] => .nothing
    | locations => .references index.document (locations.map fun l => rangeOf index l.span)

def prepareRename (session : Session) (place : Place) : Answer :=
  ((do
    let (index, offset) ← session.locate? place
    let target ← index.renameTarget? offset
    return Answer.renameTarget (rangeOf index target.node.span) target.name) :
      Option Answer).getD .nothing

/-- The edits of a renaming; a name that no rule may have is refused and the refusal is logged. -/
def rename (session : Session) (place : Place) (newName : String) : Answer × List LogRecord :=
  match session.locate? place with
  | none => (.nothing, [])
  | some (index, offset) =>
    match index.rename offset newName with
    | .error e =>
      (.nothing,
        [{ level := .warn
           text := "Rejected rename"
           fields := [("new_name", newName), ("error", e.message)] }])
    | .ok none => (.nothing, [])
    | .ok (some edits) =>
      (.edits place.uri (edits.map fun e => rangeOf index e.span) newName, [])

/-- The outline of a document. -/
def symbolsOf (index : Index) : List EditorSymbol :=
  index.symbols.map fun s => ⟨s.name, rangeOf index s.range, rangeOf index s.selection⟩

def symbols (session : Session) (uri : String) : Answer × List LogRecord :=
  match session.store.get? uri with
  | none => (.nothing, [])
  | some index =>
    (.symbols (symbolsOf index),
      [{ level := .debug
         text := "Document symbols response"
         fields := [("symbols", toString (symbolsOf index).length)] }])

def completions (session : Session) (uri : String) : Answer :=
  match session.store.get? uri with
  | none => .nothing
  | some index => .completions index.completions

/-- The answer to a question, and what is logged about it. -/
def answer (session : Session) : Query → Answer × List LogRecord
  | .hover place =>
    (session.hover place,
      [{ level := .debug, text := "Hover request", fields := positionFields place }])
  | .definition place =>
    (session.gotoDefinition place,
      [{ level := .debug, text := "Goto definition request", fields := positionFields place }])
  | .references place includeDefinitions =>
    (session.findReferences place includeDefinitions,
      [{ level := .debug
         text := "References request"
         fields := positionFields place ++
          [("include_declaration", toString includeDefinitions)] }])
  | .symbols uri => session.symbols uri
  | .prepareRename place => (session.prepareRename place, [])
  | .rename place newName => session.rename place newName
  | .completion uri => (session.completions uri, [])

/-! ### Documents -/

/-- Gives a document the index of a text. -/
def indexText (session : Session) (uri text : String) : Session × List LogRecord :=
  let (store, _, records) := session.store.upsert uri (some (parse defaultNestingLimit text.toList))
  ({ session with store }, records)

/-- A document is opened; it is ignored if its language is not accepted. -/
def openDocument (session : Session) (uri languageId text : String) : Session × List LogRecord :=
  if session.config.accepts languageId then
    let (session, records) :=
      { session with openDocuments := session.openDocuments.insert uri () }.indexText uri text
    (session, { level := .info, text := "Document opened", fields := [("uri", uri)] } :: records)
  else
    (session,
      [{ level := .debug
         text := "Ignoring document"
         fields := [("uri", uri), ("language_id", languageId)] }])

/-- The text after some changes: that of the last change of the whole text, if there is one. -/
def lastFullText? (changes : List ContentChange) : Option String :=
  (changes.reverse.find? (·.range.isNone)).map (·.text)

/-- A document has changed; one that is not open is ignored. -/
def changeDocument (session : Session) (uri : String) (version : Int)
    (changes : List ContentChange) : Session × List LogRecord :=
  if session.openDocuments.contains uri then
    match lastFullText? changes with
    | none =>
      (session,
        [{ level := .warn
           text := "Change without the full document text"
           fields := [("uri", uri)] }])
    | some text =>
      let (session, records) := session.indexText uri text
      (session,
        { level := .debug
          text := "Document changed"
          fields := [("uri", uri), ("version", toString version)] } :: records)
  else
    (session, [])

/-- A document is closed. -/
def closeDocument (session : Session) (uri : String) : Session × List LogRecord :=
  let closed : List LogRecord :=
    if session.openDocuments.contains uri then
      [{ level := .info, text := "Document closed", fields := [("uri", uri)] }]
    else []
  let (store, records) := session.store.invalidate uri
  ({ session with openDocuments := session.openDocuments.erase uri, store }, closed ++ records)

/-- Takes note of what a client tells about a document. -/
def hear (session : Session) : DocumentNotice → Session × List LogRecord
  | .opened uri languageId text => session.openDocument uri languageId text
  | .changed uri version changes => session.changeDocument uri version changes
  | .closed uri => session.closeDocument uri

end Session

end Abnf
