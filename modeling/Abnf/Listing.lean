/-
The listing of a grammar file.

`Listing.ofIndex` writes the definitions of a document and then its references by name, each
place with a row and a column from 1 up; on request the syntax tree follows as an S-expression.
-/
import Abnf.Index
import Abnf.Log

namespace Abnf

/-- Why a file could not be read. -/
inductive ReadFailure where
  | notFound
  | isDirectory
  | notUtf8
  | other (reason : String)
deriving DecidableEq

def ReadFailure.message : ReadFailure → String
  | notFound => "No such file or directory (os error 2)"
  | isDirectory => "Is a directory (os error 21)"
  | notUtf8 => "stream did not contain valid UTF-8"
  | other reason => reason

/-- What a command prints, and with which code it exits. -/
structure CommandResult where
  exitCode : Nat
  output : String
  /-- What goes to the error stream. -/
  errors : String

/-- The lines of what goes to the error stream. -/
def CommandResult.errorLines (r : CommandResult) : List String :=
  (Text.linesOf r.errors.toList).map String.ofList

namespace LogRecord

/-- A record with its level and its target. -/
def line (r : LogRecord) : String :=
  let level := match r.level with
    | .error => "ERROR"
    | .warn => "WARN"
    | .info => "INFO"
    | .debug => "DEBUG"
    | .trace => "TRACE"
  level ++ " " ++ r.target ++ ": " ++ r.render

end LogRecord

namespace Listing

/-- The place of a site, with a row and a column from 1 up. -/
def place (tree : SyntaxTree) (s : Site) : String :=
  let p := tree.startPoint s.node
  (Point.mk (p.row + 1) (p.column + 1)).render

def definitionLine (index : Index) (d : Definition) : String :=
  "  " ++ d.name ++ " at " ++ place index.tree d.head

def referenceLine (index : Index) (entry : String × List Site) : String :=
  "  " ++ entry.1 ++ ": " ++ ", ".intercalate (entry.2.map (place index.tree))

/-- The lines of a listing. -/
def lines (index : Index) (showTree : Bool) : List String :=
  ["=== Indexing: " ++ index.document ++ " ===", "",
      "Definitions (" ++ toString index.definitions.length ++ "):"] ++
    index.definitions.map (definitionLine index) ++
    ["", "References (" ++ toString index.references.size ++ " names):"] ++
    index.references.entries.map (referenceLine index) ++
    if showTree then ["", "=== Syntax Tree ===", index.tree.root.sexp] else []

/-- The listing of a document; malformed parts of it are warned about. -/
def ofIndex (index : Index) (showTree : Bool) : CommandResult where
  exitCode := 0
  output := String.join ((lines index showTree).map (· ++ "\n"))
  errors :=
    if index.tree.root.hasError then
      LogRecord.line
        { level := .warn
          text := "Grammar contains syntax errors"
          fields := [("document", index.document)] } ++ "\n"
    else ""

/-- The listing of a file of which the bytes, or why they could not be read, are known. -/
def ofFile (name : String) (showTree : Bool) (content : Except ReadFailure ByteArray) :
    CommandResult :=
  let text := do
    match String.fromUTF8? (← content) with
    | some text => return text
    | none => throw ReadFailure.notUtf8
  match text with
  | .ok text =>
    ofIndex (Index.ofTree name (parse defaultNestingLimit text.toList)) showTree
  | .error failure =>
    { exitCode := 1
      output := ""
      errors := "Error reading " ++ name ++ ": " ++ failure.message ++ "\n" }

end Listing

end Abnf
