/-
Answers to questions about a document, in the shape that editors expect.
-/
import Abnf.Feature.Completion
import Abnf.Feature.Hover
import Abnf.Json.Basic
import Abnf.Text.Editor

namespace Abnf

namespace HoverContent

/-- What is shown in a hover, as Markdown. -/
def markdown : HoverContent → String
  | core r => "**" ++ r.name ++ "**\n\n*Core rule (RFC 5234)*\n\n" ++ r.description
  | rule name body references =>
    "**" ++ name ++ "**" ++
      (if body.isEmpty then "" else "\n\n```abnf\n" ++ body ++ "\n```") ++
      (if references = 0 then "" else "\n---\n\n**References**: " ++ toString references)

end HoverContent

/-- A rule in the outline of an editor. -/
structure EditorSymbol where
  name : String
  range : EditorRange
  selection : EditorRange
deriving DecidableEq

/-- The answer to a question about a document. -/
inductive Answer where
  | nothing
  | hover (markdown : String) (range : EditorRange)
  | definition (uri : String) (range : EditorRange)
  | references (uri : String) (ranges : List EditorRange)
  | symbols (symbols : List EditorSymbol)
  | renameTarget (range : EditorRange) (placeholder : String)
  | edits (uri : String) (ranges : List EditorRange) (newText : String)
  | completions (items : List Completion)

def EditorPosition.toJson (p : EditorPosition) : Json :=
  .obj [("line", .nat p.line), ("character", .nat p.character)]

def EditorRange.toJson (r : EditorRange) : Json :=
  .obj [("start", r.start.toJson), ("end", r.stop.toJson)]

/-- The number that editors give to symbols for functions. -/
def functionSymbol : Nat := 12

def EditorSymbol.toJson (s : EditorSymbol) : Json :=
  .obj [("name", .str s.name), ("kind", .nat functionSymbol), ("range", s.range.toJson),
    ("selectionRange", s.selection.toJson)]

/-- The number that editors give to a kind of completion: a function or a constant. -/
def Completion.itemKind : Completion → Nat
  | rule _ => 3
  | core _ => 21

def Completion.toJson (c : Completion) : Json :=
  .obj ([("label", .str c.label), ("kind", .nat c.itemKind), ("detail", .str c.detail)] ++
    match c.documentation? with
    | none => []
    | some text => [("documentation", .str text)])

namespace Answer

/-- The location of a range in a document. -/
def locationJson (uri : String) (range : EditorRange) : Json :=
  .obj [("uri", .str uri), ("range", range.toJson)]

/-- An answer as a value; null if there is nothing to tell. -/
def toJson : Answer → Json
  | nothing => .null
  | hover markdown range =>
    .obj [("contents", .obj [("kind", .str "markdown"), ("value", .str markdown)]),
      ("range", range.toJson)]
  | definition uri range => locationJson uri range
  | references uri ranges => .arr (ranges.map (locationJson uri))
  | symbols ss => .arr (ss.map EditorSymbol.toJson)
  | renameTarget range placeholder =>
    .obj [("range", range.toJson), ("placeholder", .str placeholder)]
  | edits uri ranges newText =>
    let edit (range : EditorRange) : Json :=
      .obj [("range", range.toJson), ("newText", .str newText)]
    .obj [("changes", .obj [(uri, .arr (ranges.map edit))])]
  | completions items => .arr (items.map Completion.toJson)

end Answer

end Abnf
