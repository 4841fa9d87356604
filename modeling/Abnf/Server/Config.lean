/-
Options of a server.

A client may pass options when it starts the server.  Options that are absent, or malformed in any
known field, count as the defaults as a whole.
-/
import Abnf.Json.Basic

namespace Abnf

/-- What a client can choose. -/
structure Config where
  /-- The languages whose documents are indexed. -/
  languageIds : List String := ["abnf"]
  /-- Whether log records are sent to the client. -/
  logToClient : Bool := false
deriving DecidableEq

namespace Config

/-- The value of a known field: the default if the field is absent, none if it is malformed. -/
def fieldOr (default : α) (decode : Json → Option α) : Option Json → Option α
  | none => some default
  | some value => decode value

/-- A list of strings. -/
def stringList? (value : Json) : Option (List String) := do
  (← value.asList?).mapM Json.asString?

/-- The options that a value gives, by name or in the order of the fields. -/
def decode? (value : Json) : Option Config :=
  let ofFields (languageIds logToClient : Option Json) : Option Config := do
    return ⟨← fieldOr ["abnf"] stringList? languageIds, ← fieldOr false Json.asBool? logToClient⟩
  match value with
  | .obj _ => ofFields (value.get? "languageIds") (value.get? "logToClient")
  | .arr items => if items.length ≤ 2 then ofFields items[0]? items[1]? else none
  | _ => none

/-- The options of a client, or the defaults. -/
def ofOptions (options : Json) : Config := (decode? options).getD {}

/-- Whether documents of a language are indexed. -/
def accepts (config : Config) (languageId : String) : Bool := config.languageIds.contains languageId

end Config

end Abnf
